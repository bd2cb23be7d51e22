import Smolmux.Protocol

/-! The watcher (`watcher.c`): for every anomaly it asks the broker for the output before it and
writes a report. One anomaly waits at a time; the report is written when the history comes, when
it takes too long, or when the next anomaly comes. The name of the file is made of texts that the
device and the clients choose. -/

namespace Smolmux.Watcher
open Protocol List

section Names

def dot : UInt8 := 46

def isNameByte (c : UInt8) : Bool :=
  (decide (97 ≤ c) && decide (c ≤ 122)) || (decide (65 ≤ c) && decide (c ≤ 90)) || isDigit c ||
    c == 45 || c == 95

/-- A dot at the end becomes an underscore. -/
def undot (dst : Bytes) : Bytes := if dst.getLast? = some dot then dst.dropLast ++ [95] else dst

def sanitizeByte (dst : Bytes) (c : UInt8) : Bytes :=
  if isNameByte c then dst ++ [c]
  else if c = dot then undot dst ++ [dot]
  else dst ++ [95]

def sanitizeLoop (limit : Nat) : (dst src : Bytes) → Bytes
  | dst, [] => dst
  | dst, c :: src =>
    if dst.length < limit then sanitizeLoop limit (sanitizeByte dst c) src else dst

/-- The string left in a destination of the given size; its NUL stands behind it. -/
def sanitizeFilename (src : Bytes) (dstLen : Nat) : Bytes :=
  undot (sanitizeLoop (min (dstLen - 1) 128) [] (cString src))

/-- `strftime` prints the time in UTC. -/
def makeReportFilename (strftime : Int → Bytes) (anomaly : Json) : Bytes :=
  let ts := anomaly.getDouble "timestamp" 0
  let tsPart := if 0 < ts then strftime (ts.num.tdiv ts.den) else ascii "00000000-000000"
  let safe key := sanitizeFilename ((anomaly.getString key).getD (ascii "unknown")) 130
  stored 512 (stored 32 tsPart ++ 45 :: (safe "pattern_name" ++ 45 :: (safe "incident_id" ++
    ascii ".md")))

structure Tidy (dst : Bytes) : Prop where
  bytes : ∀ c ∈ dst, isNameByte c = true ∨ c = dot
  dots : ¬[dot, dot] <:+: dst

variable {dst : Bytes} {c : UInt8}

theorem Tidy.concat (h : Tidy dst) (hc : isNameByte c ∨ c = dot)
    (hend : c = dot → dst.getLast? ≠ some dot) : Tidy (dst ++ [c]) where
  bytes x hx := by
    rcases mem_append.mp hx with hx | hx
    · exact h.bytes x hx
    · rwa [mem_singleton.mp hx]
  dots hwithin := by
    rcases infix_concat_iff.mp hwithin with hsuffix | hwithin
    · obtain ⟨front, hfront⟩ := hsuffix
      have hsplit : (front ++ [dot]) ++ [dot] = dst ++ [c] := by rw [← hfront, append_assoc]; rfl
      obtain ⟨rfl, hlast⟩ := append_inj' hsplit rfl
      exact hend (singleton_inj.mp hlast).symm (getLast?_concat ..)
    · exact h.dots hwithin

theorem Tidy.undot (h : Tidy dst) : Tidy (undot dst) ∧ (undot dst).getLast? ≠ some dot := by
  unfold Watcher.undot
  split_ifs with hdot
  · have hfront : Tidy dst.dropLast :=
      ⟨fun x hx => h.bytes x (dropLast_subset _ hx),
        fun hwithin => h.dots (hwithin.trans (List.dropLast_prefix dst).isInfix)⟩
    refine ⟨hfront.concat (.inl rfl) nofun, ?_⟩
    rw [getLast?_concat]
    decide
  · exact ⟨h, hdot⟩

theorem length_undot (dst : Bytes) : (undot dst).length = dst.length := by
  unfold undot
  split_ifs with hdot
  · obtain ⟨front, rfl⟩ := getLast?_eq_some_iff.mp hdot
    simp
  · rfl

theorem length_sanitizeByte (dst : Bytes) (c : UInt8) :
    (sanitizeByte dst c).length = dst.length + 1 := by
  unfold sanitizeByte
  split_ifs <;> simp [length_undot]

theorem Tidy.sanitizeByte (h : Tidy dst) (c : UInt8) : Tidy (sanitizeByte dst c) := by
  unfold Watcher.sanitizeByte
  split_ifs with hname hdot
  · refine h.concat (.inl hname) ?_
    rintro rfl
    exact absurd hname (by decide)
  · exact h.undot.1.concat (.inr rfl) fun _ => h.undot.2
  · exact h.concat (.inl rfl) nofun

theorem tidy_sanitizeLoop {limit : Nat} (src : Bytes) (h : Tidy dst) (hle : dst.length ≤ limit) :
    Tidy (sanitizeLoop limit dst src) ∧ (sanitizeLoop limit dst src).length ≤ limit := by
  induction src generalizing dst with
  | nil => exact ⟨h, hle⟩
  | cons c src ih =>
    unfold sanitizeLoop
    split_ifs with hroom
    · exact ih (h.sanitizeByte c) (by rw [length_sanitizeByte]; omega)
    · exact ⟨h, hle⟩

theorem tidy_sanitizeFilename (src : Bytes) (dstLen : Nat) :
    Tidy (sanitizeFilename src dstLen) ∧ (sanitizeFilename src dstLen).getLast? ≠ some dot ∧
      (sanitizeFilename src dstLen).length ≤ dstLen - 1 := by
  have hstart : Tidy [] := ⟨nofun, by simp⟩
  obtain ⟨htidy, hlength⟩ :=
    tidy_sanitizeLoop (cString src) hstart (Nat.zero_le (min (dstLen - 1) 128))
  refine ⟨htidy.undot.1, htidy.undot.2, ?_⟩
  rw [sanitizeFilename, length_undot]
  exact hlength.trans (Nat.min_le_left ..)

theorem slash_notMem_sanitizeFilename (src : Bytes) (dstLen : Nat) :
    47 ∉ sanitizeFilename src dstLen := fun hmem => by
  have hbyte := (tidy_sanitizeFilename src dstLen).1.bytes 47 hmem
  exact absurd hbyte (by decide)

/-- Wherever the time has no slash the name has none, and it has a hyphen. -/
theorem report_in_directory (strftime : Int → Bytes) (hdigits : ∀ t, 47 ∉ strftime t)
    (anomaly : Json) : 47 ∉ makeReportFilename strftime anomaly ∧
      45 ∈ makeReportFilename strftime anomaly := by
  unfold makeReportFilename
  dsimp only
  generalize htime : (if 0 < anomaly.getDouble "timestamp" 0 then _ else _ : Bytes) = time
  constructor
  · intro hmem
    have hsafe := slash_notMem_sanitizeFilename
    have hend : (47 : UInt8) ∉ ascii ".md" := by decide
    have hslash := mem_of_mem_take hmem
    simp only [mem_append, mem_cons, hsafe, hend, or_false, false_or] at hslash
    rcases hslash with hslash | hslash | hslash
    · have hin := mem_of_mem_take hslash
      rw [← htime] at hin
      split_ifs at hin
      · exact hdigits _ hin
      · exact absurd hin (by decide)
    · exact absurd hslash (by decide)
    · exact absurd hslash (by decide)
  · have hlength : (stored 32 time).length ≤ 31 := length_take_le ..
    refine mem_take_iff_getElem.mpr ⟨(stored 32 time).length, ?_, ?_⟩
    · simp only [length_append, length_cons]
      omega
    · simp

/-- Whatever the text and the size, what is left is a tidy name with room for its NUL. A report
is a file of the output directory: its name has no slash, and with a hyphen it is neither `.` nor
`..`. -/
theorem sanitizeFilename_safe (src : Bytes) (dstLen : Nat) (hsize : 2 ≤ dstLen) :
    let out := sanitizeFilename src dstLen
    (out.length < dstLen ∧ 0 ∉ out ∧ (∀ c ∈ out, isNameByte c = true ∨ c = dot) ∧
      ¬[dot, dot] <:+: out ∧ out.getLast? ≠ some dot) ∧
      ∀ strftime : Int → Bytes, (∀ t, 47 ∉ strftime t) → ∀ anomaly,
        47 ∉ makeReportFilename strftime anomaly ∧ 45 ∈ makeReportFilename strftime anomaly := by
  intro out
  obtain ⟨htidy, hend, hlength⟩ := tidy_sanitizeFilename src dstLen
  refine ⟨⟨Nat.lt_of_le_pred (by omega) hlength, fun hnul => ?_, htidy.bytes, htidy.dots, hend⟩,
    report_in_directory⟩
  exact absurd (htidy.bytes 0 hnul) (by decide)

theorem sanitizeFilename_safe_parent :
    sanitizeFilename (ascii "../x.") 7 = ascii "_._x_" ∧ ¬[dot, dot] <:+: ascii "_._x_" := by
  have hout : sanitizeFilename (ascii "../x.") 7 = ascii "_._x_" := by decide
  exact ⟨hout, hout ▸ (sanitizeFilename_safe (ascii "../x.") 7 (by decide)).1.2.2.2.1⟩

end Names

section Reports

structure Pending where
  anomaly : Json
  id : Bytes
  time : Int

structure Report where
  name : Bytes
  anomaly : Json
  chunks : Option Json

structure Watcher where
  pending : Option Pending
  seq : Nat
  /-- The names in the output directory. -/
  files : List Bytes
  /-- The reports that have been written. -/
  reports : List Report

variable (strftime : Int → Bytes)

/-- The file is created exclusively: a report whose name is there already is not written. -/
def writeReport (w : Watcher) (anomaly : Json) (chunks : Option Json) : Watcher :=
  let name := makeReportFilename strftime anomaly
  if name ∈ w.files then w
  else { w with files := w.files ++ [name], reports := w.reports ++ [⟨name, anomaly, chunks⟩] }

def clearPending (w : Watcher) : Watcher := { w with pending := none }

def makeRequestId (nsec seq : Nat) : Bytes :=
  stored 64 (ascii "w-" ++ decimal nsec ++ ascii "-" ++ decimal seq)

def handleAnomaly (w : Watcher) (root : Json) (now : Int) (nsec : Nat) : Watcher :=
  let w := w.pending.elim w fun p => clearPending (writeReport strftime w p.anomaly none)
  { w with pending := some ⟨root, makeRequestId nsec w.seq, now⟩, seq := w.seq + 1 }

/-- `cJSON_GetObjectItem` does not look at the case of letters. -/
def chunksOf : Json → Option Json
  | .obj fields => (fields.find? fun f => f.1.toLower == "chunks").map Prod.snd
  | _ => none

def handleHistoryResponse (w : Watcher) (root : Json) : Watcher :=
  w.pending.elim w fun p =>
    if root.getString "id" = some p.id then
      clearPending (writeReport strftime w p.anomaly (chunksOf root))
    else w

def dispatchMessage (w : Watcher) (msg : Msg) (now : Int) (nsec : Nat) : Watcher :=
  match msg with
  | ⟨.anomaly, some root⟩ => handleAnomaly strftime w root now nsec
  | ⟨.historyResponse, some root⟩ => handleHistoryResponse strftime w root
  | _ => w

def historyTimeout : Int := 5

def checkPendingTimeout (w : Watcher) (now : Int) : Watcher :=
  w.pending.elim w fun p =>
    if historyTimeout ≤ now - p.time then clearPending (writeReport strftime w p.anomaly none)
    else w

inductive Event
  | message (msg : Msg) (now : Int) (nsec : Nat)
  | poll (now : Int)
  /-- The connection ends and the next one is begun. -/
  | reconnect

def step (w : Watcher) : Event → Watcher
  | .message msg now nsec => dispatchMessage strftime w msg now nsec
  | .poll now => checkPendingTimeout strftime w now
  | .reconnect => clearPending w

def run (files : List Bytes) (evs : List Event) : Watcher :=
  evs.foldl (step strftime) ⟨none, 0, files, []⟩

/-- The loop is left after a signal. -/
def stop (w : Watcher) : Watcher := clearPending w

def Event.anomaly : Event → Option Json
  | .message ⟨.anomaly, some root⟩ _ _ => some root
  | _ => none

def received (evs : List Event) : List Json := evs.filterMap Event.anomaly

/-- The anomalies seen are those with a report, in order, and then the one that waits. -/
structure Accounted (files : List Bytes) (seen : List Json) (w : Watcher) : Prop where
  order : w.reports.map Report.anomaly ++ (w.pending.map Pending.anomaly).toList = seen
  names : w.reports.map Report.name =
    (w.reports.map Report.anomaly).map (makeReportFilename strftime)
  files : w.files = files ++ w.reports.map Report.name

variable {strftime} {files : List Bytes} {seen : List Json} {w : Watcher}

theorem Accounted.write (h : Accounted strftime files seen w)
    (hnames : (files ++ seen.map (makeReportFilename strftime)).Nodup) {p : Pending}
    (hp : w.pending = some p) (chunks : Option Json) :
    Accounted strftime files seen (clearPending (writeReport strftime w p.anomaly chunks)) := by
  have horder : w.reports.map Report.anomaly ++ [p.anomaly] = seen := by
    have := h.order
    rwa [hp] at this
  have hfresh : makeReportFilename strftime p.anomaly ∉ w.files := by
    rw [← horder, map_append, ← append_assoc, ← h.names, ← h.files] at hnames
    exact fun hmem => (nodup_append.mp hnames).2.2 _ hmem _ (mem_singleton_self _) rfl
  rw [writeReport, if_neg hfresh]
  refine ⟨?_, ?_, ?_⟩
  · rw [← horder]
    simp [clearPending]
  · simp [clearPending, h.names]
  · simp [clearPending, h.files]

theorem Accounted.next (h : Accounted strftime files seen w) (hw : w.pending = none) (p : Pending)
    (seq : Nat) :
    Accounted strftime files (seen ++ [p.anomaly]) { w with pending := some p, seq := seq } where
  order := by
    have horder := h.order
    rw [hw] at horder
    rw [← horder]
    simp
  names := h.names
  files := h.files

theorem Accounted.anomaly (h : Accounted strftime files seen w)
    (hnames : (files ++ seen.map (makeReportFilename strftime)).Nodup) (root : Json) (now : Int)
    (nsec : Nat) :
    Accounted strftime files (seen ++ [root]) (handleAnomaly strftime w root now nsec) := by
  unfold handleAnomaly
  cases hp : w.pending with
  | none => exact h.next hp ⟨root, _, now⟩ _
  | some p => exact (h.write hnames hp none).next rfl ⟨root, _, now⟩ _

theorem Accounted.step (h : Accounted strftime files seen w) (ev : Event)
    (hnames : (files ++ seen.map (makeReportFilename strftime)).Nodup)
    (hidle : ev = .reconnect → w.pending = none) :
    Accounted strftime files (seen ++ ev.anomaly.toList) (step strftime w ev) := by
  have hkept : ∀ (q : Pending → Prop) [DecidablePred q] chunks, Accounted strftime files seen
      (w.pending.elim w fun p =>
        if q p then clearPending (writeReport strftime w p.anomaly chunks) else w) := by
    intro q _ chunks
    cases hp : w.pending with
    | none => exact h
    | some p =>
      rw [Option.elim_some]
      split_ifs
      · exact h.write hnames hp chunks
      · exact h
  have hnothing : ∀ w', Accounted strftime files seen w' →
      Accounted strftime files (seen ++ []) w' := fun _ h => (append_nil seen).symm ▸ h
  cases ev with
  | message msg now nsec =>
    change Accounted _ _ _ (dispatchMessage strftime w msg now nsec)
    unfold dispatchMessage
    split
    · exact h.anomaly hnames _ now nsec
    · exact hnothing _ (hkept _ _)
    next hother _ =>
      have hnone : (Event.message msg now nsec).anomaly = none := by
        unfold Event.anomaly
        split
        next heq =>
          cases heq
          exact absurd rfl (hother _)
        · rfl
      rw [hnone]
      exact hnothing _ h
  | poll now => exact hnothing _ (hkept _ none)
  | reconnect =>
    have hsame : clearPending w = w := by
      rw [clearPending, ← hidle rfl]
    exact hnothing _ (hsame.symm ▸ h)

theorem accounted_run (evs : List Event)
    (hnames : (files ++ (received evs).map (makeReportFilename strftime)).Nodup)
    (hidle : ∀ pre post, evs = pre ++ .reconnect :: post → (run strftime files pre).pending = none) :
    Accounted strftime files (received evs) (run strftime files evs) := by
  induction evs using reverseRecOn with
  | nil => exact ⟨rfl, rfl, (append_nil files).symm⟩
  | append_singleton evs ev ih =>
    have hreceived : received (evs ++ [ev]) = received evs ++ ev.anomaly.toList := by
      rw [received, filterMap_append, received]
      cases h : ev.anomaly <;> simp [h]
    have hbefore : (files ++ (received evs).map (makeReportFilename strftime)).Nodup := by
      rw [hreceived, map_append, ← append_assoc] at hnames
      exact (nodup_append.mp hnames).1
    have hrun : run strftime files (evs ++ [ev]) = step strftime (run strftime files evs) ev :=
      foldl_concat ..
    have hbegun := ih hbefore fun pre post heq => hidle pre (post ++ [ev]) (by rw [heq]; simp)
    rw [hreceived, hrun]
    refine hbegun.step ev hbefore fun heq => hidle evs [] ?_
    rw [heq]

/-- When no two anomalies have one name, and none waits when the connection or the watcher ends,
each of them has one report, in the order in which they came, in a file of its own. -/
theorem every_anomaly_reported (strftime : Int → Bytes) (files : List Bytes) (evs : List Event)
    (hnames : (files ++ (received evs).map (makeReportFilename strftime)).Nodup)
    (hidle : ∀ pre post, evs = pre ++ .reconnect :: post → (run strftime files pre).pending = none)
    (hstop : (run strftime files evs).pending = none) :
    let w := stop (run strftime files evs)
    w.reports.map Report.anomaly = received evs ∧
      w.reports.map Report.name = (received evs).map (makeReportFilename strftime) ∧
      w.files = files ++ w.reports.map Report.name ∧ (w.reports.map Report.name).Nodup := by
  intro w
  have h := accounted_run evs hnames hidle
  have horder : w.reports.map Report.anomaly = received evs := by
    have horder := h.order
    rw [hstop] at horder
    exact append_nil (w.reports.map Report.anomaly) ▸ horder
  have hown : w.reports.map Report.name = (received evs).map (makeReportFilename strftime) :=
    horder ▸ h.names
  exact ⟨horder, hown, h.files, hown ▸ (nodup_append.mp hnames).2.1⟩

def anomalyNamed (id : String) : Event :=
  .message ⟨.anomaly, some (.obj [("pattern_name", .str (ascii "oops")),
    ("incident_id", .str (ascii id))])⟩ 100 0

/-- Two anomalies: the first report is written when the second comes, the second one when its
history takes too long. -/
theorem every_anomaly_reported_timeout :
    let evs := [anomalyNamed "a", anomalyNamed "b", .poll 105]
    (stop (run (fun _ => []) [] evs)).reports.map Report.anomaly = received evs ∧
      (received evs).length = 2 := by
  intro evs
  refine ⟨(every_anomaly_reported (fun _ => []) [] evs (by decide) (fun pre post heq => ?_) rfl).1,
    rfl⟩
  have hmem : Event.reconnect ∈ evs := heq ▸ mem_append_right _ mem_cons_self
  simp [evs, anomalyNamed] at hmem

/-- The anomaly that waits when the watcher is stopped has no report, and of two whose names come
out the same the second has none. -/
theorem anomaly_unreported :
    (stop (run (fun _ => []) [] [anomalyNamed "a"])).reports.length = 0 ∧
      (received [anomalyNamed "a"]).length = 1 ∧
    (stop (run (fun _ => []) [] [anomalyNamed "a b", anomalyNamed "a_b", .poll 105])).reports.length
      = 1 ∧ (received [anomalyNamed "a b", anomalyNamed "a_b", .poll 105]).length = 2 := by
  decide

end Reports

end Smolmux.Watcher
