import Smolmux.Anomaly

/-! Socket paths and token files (`sock_util.c`). The paths of the broker are derived from a
runtime directory and a tag; a token file holds one line. -/

namespace Smolmux.SockUtil
open List

def sockPathMax : Nat := 108
def sockBindTmpExtra : Nat := 16
def sockFinalMax : Nat := sockPathMax - 1 - sockBindTmpExtra

def intMax : Nat := 2 ^ 31 - 1

def fnv1a32 (s : Bytes) : Nat :=
  s.foldl (fun h c => (h ^^^ c.toNat) * 16777619 % 2 ^ 32) 2166136261

def sizeSub (a b : Nat) : Nat := (a + 2 ^ 64 - b) % 2 ^ 64

/-- What a call of `format_smolmux_sock` leaves in `out`, `hex` and `prefix`, up to the NUL of
each, and whether it succeeds. -/
structure Formatted where
  out : Bytes
  hex : Bytes
  start : Bytes
  ok : Bool

def Formatted.path (f : Formatted) : Option Bytes := if f.ok then some f.out else none

def readable (dir tag : Bytes) : Bytes := dir ++ ascii "/smolmux-" ++ tag ++ ascii ".sock"

def prefixMax (outLen maxStrlen fixed : Nat) : Nat :=
  let most := sizeSub maxStrlen fixed
  if outLen ≤ (most + fixed) % 2 ^ 64 then sizeSub (sizeSub outLen 1) fixed else most

def formatShort (outLen : Nat) (dir tag : Bytes) (maxStrlen : Nat) (out : Bytes) : Formatted :=
  let hex := stored 9 (Anomaly.hexPadded 8 (fnv1a32 tag))
  let fixed := (dir.length + 9 + 1 + 8 + 5) % 2 ^ 64
  if outLen ≤ fixed ∨ maxStrlen < fixed ∨ prefixMax outLen maxStrlen fixed < 1 then
    ⟨out, hex, [], false⟩
  else
    let start := tag.take (min tag.length (prefixMax outLen maxStrlen fixed))
    let short := readable dir (start ++ ascii "-" ++ hex)
    ⟨stored outLen short, hex, start,
      short.length ≤ intMax ∧ short.length < outLen ∧ short.length ≤ maxStrlen⟩

def formatSmolmuxSock (outLen : Nat) (dir tag : Bytes) (maxStrlen : Nat) : Formatted :=
  if outLen = 0 ∨ dir = [] ∨ tag = [] then ⟨[], [], [], false⟩
  else
    let out := stored outLen (readable dir tag)
    if intMax < (readable dir tag).length then ⟨out, [], [], false⟩
    else if (readable dir tag).length < outLen ∧ (readable dir tag).length ≤ maxStrlen then
      ⟨out, [], [], true⟩
    else formatShort outLen dir tag maxStrlen out

def sockRuntimeDir : (xdgRuntimeDir : Option Bytes) → Bytes
  | none | some [] => ascii "/tmp"
  | some dir => dir

def deriveBoardSocketPath (outLen : Nat) (env : Option Bytes) (board role : Bytes) :
    Option Bytes :=
  if board = [] ∨ role = [] then none
  else
    let tag := stored 256 (board ++ ascii "-" ++ role)
    (formatSmolmuxSock outLen (sockRuntimeDir env) tag sockFinalMax).path

def decimalInt (n : Int) : Bytes := if n < 0 then 45 :: decimal n.natAbs else decimal n.natAbs

/-- The name that `create_listen_socket` prints for its bind, before it is cut to its buffer;
the path has been copied to the broker's field. -/
def bindName (path : Bytes) (pid : Int) : Bytes :=
  stored sockPathMax path ++ ascii "." ++ decimalInt pid ++ ascii ".tmp"

theorem stored_length {size : Nat} (h : 0 < size) (s : Bytes) : (stored size s).length < size := by
  rw [stored, length_take]
  omega

theorem decimalInt_length {n : Int} (hlow : -2 ^ 31 ≤ n) (hhigh : n < 2 ^ 31) :
    (decimalInt n).length ≤ 11 := by
  have hdigits : (decimal n.natAbs).length ≤ 10 := length_decimal_le (by decide) (by omega)
  unfold decimalInt
  split_ifs
  · exact Nat.succ_le_succ hdigits
  · omega

theorem bindName_fits {path : Bytes} (hpath : path.length ≤ sockFinalMax) {pid : Int}
    (hlow : -2 ^ 31 ≤ pid) (hhigh : pid < 2 ^ 31) : (bindName path pid).length < sockPathMax := by
  have hpid := decimalInt_length hlow hhigh
  have hdot : (ascii ".").length = 1 := rfl
  have htmp : (ascii ".tmp").length = 4 := rfl
  simp only [sockFinalMax, sockPathMax, sockBindTmpExtra] at hpath
  simp only [bindName, stored, sockPathMax, length_append, length_take, hdot, htmp]
  omega

theorem sizeSub_eq {a b : Nat} (h : b ≤ a) (ha : a < 2 ^ 64) : sizeSub a b = a - b := by
  unfold sizeSub
  omega

theorem prefixMax_le {outLen fixed : Nat} (hout : fixed < outLen) (hmax : fixed ≤ sockFinalMax) :
    prefixMax outLen sockFinalMax fixed + fixed ≤ sockFinalMax ∧
      (sockFinalMax < outLen → prefixMax outLen sockFinalMax fixed = sockFinalMax - fixed) := by
  have hlimit : sockFinalMax < 2 ^ 64 := by decide
  have hsum : (sockFinalMax - fixed + fixed) % 2 ^ 64 = sockFinalMax := by
    rw [Nat.sub_add_cancel hmax, Nat.mod_eq_of_lt hlimit]
  simp only [prefixMax, sizeSub_eq hmax hlimit, hsum]
  split_ifs with hsmall
  · rw [sizeSub_eq (by omega : 1 ≤ outLen) (by omega), sizeSub_eq (by omega) (by omega)]
    omega
  · omega

/-- What a call with the limit leaves: each buffer keeps its NUL, and a path within the limit
stands in `out` on success. -/
structure Formatted.Fits (f : Formatted) (outLen : Nat) : Prop where
  out : 0 < outLen → f.out.length < outLen
  hex : f.hex.length < 9
  start : f.start.length < 128
  path : f.ok → f.out.length ≤ sockFinalMax

section Format
variable (outLen : Nat) (dir tag : Bytes)

theorem formatShort_fits {out : Bytes} (hout : 0 < outLen → out.length < outLen) :
    (formatShort outLen dir tag sockFinalMax out).Fits outLen := by
  have hhex := stored_length (by decide : 0 < 9) (Anomaly.hexPadded 8 (fnv1a32 tag))
  simp only [formatShort]
  split_ifs with hno
  · exact ⟨hout, hhex, by simp, nofun⟩
  · rw [not_or, not_or, Nat.not_le, Nat.not_lt] at hno
    obtain ⟨hmost, -⟩ := prefixMax_le hno.1 hno.2.1
    refine ⟨fun h => stored_length h _, hhex, ?_, fun hok => ?_⟩
    · have hfinal : sockFinalMax < 128 := by decide
      simp only [length_take]
      omega
    · obtain ⟨-, hfits, hmax⟩ := of_decide_eq_true hok
      rwa [stored_fits hfits]

theorem formatSmolmuxSock_fits : (formatSmolmuxSock outLen dir tag sockFinalMax).Fits outLen := by
  have hout := fun h : 0 < outLen => stored_length h (readable dir tag)
  simp only [formatSmolmuxSock]
  split_ifs with hnone hbig hreadable
  · exact ⟨id, by simp, by simp, nofun⟩
  · exact ⟨hout, by simp, by simp, nofun⟩
  · refine ⟨hout, by simp, by simp, fun _ => ?_⟩
    rw [stored_fits hreadable.1]
    exact hreadable.2
  · exact formatShort_fits outLen dir tag hout

def shortPath (dir tag : Bytes) : Option Bytes :=
  let fixed := (dir.length + 9 + 1 + 8 + 5) % 2 ^ 64
  let start := tag.take (min tag.length (sockFinalMax - fixed))
  let short := readable dir (start ++ ascii "-" ++ stored 9 (Anomaly.hexPadded 8 (fnv1a32 tag)))
  if fixed < sockFinalMax ∧ short.length ≤ sockFinalMax then some short else none

theorem formatShort_path (h : sockFinalMax < outLen) (out : Bytes) :
    (formatShort outLen dir tag sockFinalMax out).path = shortPath dir tag := by
  have hint : sockFinalMax < intMax := by decide
  simp only [formatShort, shortPath]
  generalize (dir.length + 9 + 1 + 8 + 5) % 2 ^ 64 = fixed
  by_cases hfixed : fixed < sockFinalMax
  · have hmost := (prefixMax_le (hfixed.trans h) hfixed.le).2 h
    rw [if_neg (by omega), hmost]
    generalize readable dir _ = short
    by_cases hshort : short.length ≤ sockFinalMax
    · have hok : short.length ≤ intMax ∧ short.length < outLen := ⟨by omega, by omega⟩
      simp [Formatted.path, hfixed, hshort, hok, stored_fits hok.2]
    · simp [Formatted.path, hshort]
  · have hno : outLen ≤ fixed ∨ sockFinalMax < fixed ∨ prefixMax outLen sockFinalMax fixed < 1 := by
      by_contra hnot
      have hmost := (prefixMax_le (show fixed < outLen by omega) (by omega)).1
      omega
    rw [if_pos hno, if_neg fun hshort => hfixed hshort.1]
    rfl

theorem format_path (h : sockFinalMax < outLen) :
    (formatSmolmuxSock outLen dir tag sockFinalMax).path =
      if dir = [] ∨ tag = [] then none
      else if intMax < (readable dir tag).length then none
      else if (readable dir tag).length ≤ sockFinalMax then some (readable dir tag)
      else shortPath dir tag := by
  have hpos : outLen ≠ 0 := by omega
  simp only [formatSmolmuxSock, hpos, false_or, apply_ite Formatted.path]
  by_cases hfits : (readable dir tag).length ≤ sockFinalMax
  · have hout : (readable dir tag).length < outLen := by omega
    simp [hfits, hout, stored_fits, Formatted.path]
  · rw [formatShort_path outLen dir tag h]
    simp [hfits, Formatted.path]

/-- A call with the limit stays inside its buffers. The path it returns is within the limit,
the name for the bind fits the address for every process, and the same path or failure comes
out of every buffer that could hold a path of the limit. -/
theorem derived_path_binds :
    (formatSmolmuxSock outLen dir tag sockFinalMax).Fits outLen ∧
      (∀ path ∈ (formatSmolmuxSock outLen dir tag sockFinalMax).path, path.length ≤ 91 ∧
        ∀ pid : Int, -2 ^ 31 ≤ pid → pid < 2 ^ 31 → (bindName path pid).length < 108) ∧
      ∀ outLen', 92 ≤ outLen → 92 ≤ outLen' →
        (formatSmolmuxSock outLen dir tag sockFinalMax).path =
          (formatSmolmuxSock outLen' dir tag sockFinalMax).path := by
  have hfits := formatSmolmuxSock_fits outLen dir tag
  refine ⟨hfits, fun path hpath => ?_, fun outLen' h h' => ?_⟩
  · have hok : (formatSmolmuxSock outLen dir tag sockFinalMax).ok = true ∧
        (formatSmolmuxSock outLen dir tag sockFinalMax).out = path := by
      simpa [Formatted.path] using hpath
    have hlen := hfits.path hok.1
    rw [hok.2] at hlen
    exact ⟨hlen, fun pid hlow hhigh => bindName_fits hlen hlow hhigh⟩
  · rw [format_path outLen dir tag h, format_path outLen' dir tag h']

end Format

section Boards
variable {outLen : Nat} {env : Option Bytes} {board role : Bytes}

theorem sockRuntimeDir_ne_nil (env : Option Bytes) : sockRuntimeDir env ≠ [] := by
  unfold sockRuntimeDir
  split
  · decide
  · decide
  · assumption

def Readable (env : Option Bytes) (board role : Bytes) : Prop :=
  board ≠ [] ∧ role ≠ [] ∧
    (readable (sockRuntimeDir env) (board ++ ascii "-" ++ role)).length ≤ sockFinalMax

theorem deriveBoard_readable (hout : sockFinalMax < outLen) (h : Readable env board role) :
    deriveBoardSocketPath outLen env board role =
      some (readable (sockRuntimeDir env) (board ++ ascii "-" ++ role)) := by
  obtain ⟨hboard, hrole, hfits⟩ := h
  have htag : (board ++ ascii "-" ++ role).length ≤ sockFinalMax := by
    simp only [readable, length_append] at hfits ⊢
    omega
  have hwhole : stored 256 (board ++ ascii "-" ++ role) = board ++ ascii "-" ++ role :=
    stored_fits (htag.trans_lt (by decide))
  have hint : ¬ intMax < (readable (sockRuntimeDir env) (board ++ ascii "-" ++ role)).length :=
    (hfits.trans (by decide)).not_gt
  simp only [deriveBoardSocketPath, hwhole, format_path outLen _ _ hout, if_neg hint, if_pos hfits]
  simp [hboard, hrole, sockRuntimeDir_ne_nil]

def Overlaps (board role board' role' : Bytes) : Prop :=
  ∃ shared, board = board' ++ ascii "-" ++ shared ∧ role' = shared ++ ascii "-" ++ role

theorem tag_eq_iff {board' role' : Bytes} :
    board ++ ascii "-" ++ role = board' ++ ascii "-" ++ role' ↔
      (board, role) = (board', role') ∨ Overlaps board role board' role' ∨
        Overlaps board' role' board role := by
  have hhyphen : ascii "-" = [45] := rfl
  constructor
  · intro htag
    simp only [hhyphen, append_assoc, singleton_append] at htag
    rcases append_eq_append_iff.mp htag with ⟨middle, hboard, hrole⟩ | ⟨middle, hboard, hrole⟩ <;>
      cases middle with
      | nil => exact .inl (by simp_all)
      | cons c shared => simp_all [Overlaps]
  · rintro (heq | ⟨shared, rfl, rfl⟩ | ⟨shared, rfl, rfl⟩)
    · rw [(Prod.mk.inj heq).1, (Prod.mk.inj heq).2]
    · simp only [append_assoc]
    · simp only [append_assoc]

end Boards

/-- Two wires whose readable names fit share a path just when the longer board begins with the
shorter one and a hyphen, and the longer role begins with what the board has behind it. -/
theorem board_paths_differ {outLen : Nat} (hout : sockFinalMax < outLen) (env : Option Bytes)
    {board role board' role' : Bytes} (h : Readable env board role)
    (h' : Readable env board' role') (hne : (board, role) ≠ (board', role')) :
    deriveBoardSocketPath outLen env board role ≠ deriveBoardSocketPath outLen env board' role' ↔
      ¬ (Overlaps board role board' role' ∨ Overlaps board' role' board role) := by
  have hpath : readable (sockRuntimeDir env) (board ++ ascii "-" ++ role) =
      readable (sockRuntimeDir env) (board' ++ ascii "-" ++ role') ↔
        board ++ ascii "-" ++ role = board' ++ ascii "-" ++ role' :=
    ⟨fun heq => append_cancel_left (append_cancel_right heq), fun heq => by rw [heq]⟩
  rw [deriveBoard_readable hout h, deriveBoard_readable hout h', ne_eq, Option.some_inj, hpath,
    tag_eq_iff, or_iff_right hne]

theorem board_paths_differ_roles :
    deriveBoardSocketPath 108 none (ascii "rpi") (ascii "boot-uart") ≠
      deriveBoardSocketPath 108 none (ascii "rpi") (ascii "main-uart") :=
  (board_paths_differ (by decide) none ⟨by decide, by decide, by decide⟩
    ⟨by decide, by decide, by decide⟩ (by decide)).mpr fun h => by
      rcases h with ⟨shared, hboard, -⟩ | ⟨shared, hboard, -⟩ <;>
        simpa [ascii] using congrArg List.length hboard

/-- The hyphen of a board's name and the one of a role's meet in one path. -/
theorem hyphen_paths_collide :
    Readable none (ascii "a-b") (ascii "c") ∧ Readable none (ascii "a") (ascii "b-c") ∧
      deriveBoardSocketPath 108 none (ascii "a-b") (ascii "c") =
        deriveBoardSocketPath 108 none (ascii "a") (ascii "b-c") :=
  ⟨⟨by decide, by decide, by decide⟩, ⟨by decide, by decide, by decide⟩, by decide⟩

structure FileStat where
  regular : Bool
  owned : Bool
  nlink : Nat
  mode : Nat

def fgets : (max : Nat) → Bytes → Bytes × Bytes
  | 0, file => ([], file)
  | _ + 1, [] => ([], [])
  | max + 1, c :: file =>
    if c = 10 then ([c], file)
    else
      let r := fgets max file
      (c :: r.1, r.2)

def hasExtra : Bytes → Bool
  | [] | [13] | [13, 10] | [10] => false
  | _ => true

def behindLine (max : Nat) (content : Bytes) : Bytes :=
  let line := content.takeWhile (· != 10)
  if line.length < max then content.drop (line.length + 1) else content.drop max

def inLine (c : UInt8) : Bool := c != 0 && c != 13 && c != 10

def cutLine (out : Bytes) : Bytes := out.takeWhile inLine

-- the size is cast to `int`, and a size that is not positive reads nothing
def lineRoom (outLen : Nat) : Nat := ((outLen : Int).bmod (2 ^ 32) - 1).toNat

def readOwnerSecretFile (path : Bytes) (outLen : Nat) (file : Option (FileStat × Bytes)) :
    Option Bytes :=
  if path = [] ∨ outLen < 2 then none
  else
    match file with
    | none => none
    | some (st, content) =>
      if st.regular = false ∨ st.owned = false ∨ st.nlink ≠ 1 ∨ st.mode % 512 ≠ 384 then none
      else
        let line := fgets (lineRoom outLen) content
        if cutLine line.1 = [] ∨ hasExtra line.2 then none else some (cutLine line.1)

theorem fgets_append (max : Nat) (file : Bytes) : (fgets max file).1 ++ (fgets max file).2 = file := by
  induction max, file using fgets.induct with
  | case1 file => rfl
  | case2 max => rfl
  | case3 max file => simp [fgets]
  | case4 max c file hc ih =>
    simp only [fgets, if_neg hc, cons_append, ih]

theorem fgets_rest (max : Nat) (file : Bytes) : (fgets max file).2 = behindLine max file := by
  induction max, file using fgets.induct with
  | case1 file => rfl
  | case2 max => simp [fgets, behindLine]
  | case3 max file => simp [fgets, behindLine]
  | case4 max c file hc ih =>
    have hkept : (c :: file).takeWhile (· != 10) = c :: file.takeWhile (· != 10) :=
      takeWhile_cons_of_pos (by simpa using hc)
    simp only [fgets, if_neg hc, ih, behindLine, hkept, length_cons, Nat.succ_eq_add_one,
      Nat.add_lt_add_iff_right, drop_succ_cons]

/-- Where the look-ahead finds nothing, the cut does not depend on how much was read. -/
theorem cutLine_taken {taken rest : Bytes} (h : hasExtra rest = false) :
    cutLine taken = cutLine (taken ++ rest) := by
  have hrest : rest.takeWhile inLine = [] := by
    unfold hasExtra at h
    split at h
    · rfl
    · rfl
    · rfl
    · rfl
    · cases h
  rw [cutLine, cutLine, takeWhile_append]
  split_ifs with hall
  · rw [hrest, append_nil]
    exact (List.takeWhile_prefix inLine).eq_of_length hall
  · rfl

def Terminator (t : Bytes) : Prop := t = [] ∨ t = [10] ∨ t = [13, 10]

def Unreadable (path : Bytes) (outLen : Nat) (st : FileStat) : Prop :=
  path = [] ∨ outLen < 2 ∨ st.regular = false ∨ st.owned = false ∨ st.nlink ≠ 1 ∨
    st.mode % 512 ≠ 384

def IsLine (content : Bytes) : Prop :=
  ∃ text t, (∀ c ∈ text, inLine c) ∧ Terminator t ∧ content = text ++ t

theorem isLine_iff {content : Bytes} :
    IsLine content ↔ ∃ t, Terminator t ∧ content = cutLine content ++ t := by
  constructor
  · rintro ⟨text, t, htext, ht, rfl⟩
    have hcut : cutLine (text ++ t) = text := by
      rw [cutLine, takeWhile_append_of_pos htext]
      rcases ht with rfl | rfl | rfl <;> simp [inLine]
    exact ⟨t, ht, by rw [hcut]⟩
  · rintro ⟨t, ht, heq⟩
    exact ⟨cutLine content, t, fun c hc => mem_takeWhile_imp hc, ht, heq⟩

theorem cutLine_eq_nil {content : Bytes} :
    cutLine content = [] ↔ ∀ c ∈ content.head?, inLine c = false := by
  cases content with
  | nil => simp [cutLine]
  | cons c content => simp [cutLine, takeWhile_cons]

theorem readOwnerSecretFile_eq_some {path : Bytes} {outLen : Nat} {st : FileStat}
    {content token : Bytes} :
    readOwnerSecretFile path outLen (some (st, content)) = some token ↔
      ¬ Unreadable path outLen st ∧ cutLine content ≠ [] ∧
        hasExtra (behindLine (lineRoom outLen) content) = false ∧ token = cutLine content := by
  have hsplit := fgets_append (lineRoom outLen) content
  have hrest := fgets_rest (lineRoom outLen) content
  unfold readOwnerSecretFile
  generalize lineRoom outLen = max at hsplit hrest ⊢
  simp only [hrest]
  by_cases hextra : hasExtra (behindLine max content)
  · simp [hextra]
  · rw [Bool.not_eq_true] at hextra
    rw [cutLine_taken (hrest ▸ hextra), hsplit, hextra]
    by_cases hread : Unreadable path outLen st
    · refine iff_of_false ?_ fun h => h.1 hread
      by_cases hargs : path = [] ∨ outLen < 2
      · rw [if_pos hargs]
        exact nofun
      · rw [if_neg hargs, if_pos ((or_assoc.mpr hread).resolve_left hargs)]
        exact nofun
    · have ⟨hargs, hstat⟩ := not_or.mp (mt or_assoc.mp hread)
      rw [if_neg hargs, if_neg hstat]
      by_cases hempty : cutLine content = []
      · simp [hempty]
      · simp [hempty, hread, eq_comm (a := token)]

/-- The token is the whole file but its line terminator just when the file is not read at all,
begins with no byte of a token, goes on behind its first line or behind the end of the buffer, or
is one line without CR and NUL. -/
theorem token_is_whole_file (path : Bytes) (outLen : Nat) (st : FileStat) (content : Bytes) :
    (∀ token, readOwnerSecretFile path outLen (some (st, content)) = some token →
      ∃ t, Terminator t ∧ content = token ++ t) ↔
      Unreadable path outLen st ∨ (∀ c ∈ content.head?, inLine c = false) ∨
        hasExtra (behindLine (lineRoom outLen) content) = true ∨ IsLine content := by
  rw [isLine_iff, ← cutLine_eq_nil]
  simp only [readOwnerSecretFile_eq_some]
  constructor
  · intro h
    by_contra! hcond
    obtain ⟨hreadable, hstart, hend, hline⟩ := hcond
    obtain ⟨t, ht, heq⟩ := h _ ⟨hreadable, hstart, by simpa using hend, rfl⟩
    exact hline t ht heq
  · rintro h token ⟨hreadable, hstart, hend, rfl⟩
    simpa [hreadable, hstart, hend] using h

/-- A token is cut at a CR or a NUL, and a second, empty line is let through. -/
theorem token_cut_short :
    let read := fun content =>
      readOwnerSecretFile (ascii "/t") 64 (some (⟨true, true, 1, 384⟩, content))
    read (ascii "ab" ++ [13] ++ ascii "cd" ++ [10]) = some (ascii "ab") ∧
      read (ascii "ab" ++ [0] ++ ascii "cd" ++ [10]) = some (ascii "ab") ∧
      read (ascii "ab" ++ [10, 10]) = some (ascii "ab") := by
  decide

end Smolmux.SockUtil
