import Smolmux.Bytes

/-! The text log of the console (`text_log.c`): one line of the file for every line of device
output, with the time of the write that ended it. -/

namespace Smolmux.TextLog
open List

structure Stamp where
  year : Nat
  yday : Nat
  month : Nat
  day : Nat
  hour : Nat
  minute : Nat
  second : Nat
  deriving DecidableEq

structure Line where
  path : Bytes
  stamp : Stamp
  text : Bytes
  deriving DecidableEq

structure Log where
  dir : Bytes
  portName : Bytes
  path : Option Bytes
  current : Nat × Nat
  lineBuf : Bytes
  written : List Line

def padded (width n : Nat) : Bytes := replicate (width - (decimal n).length) 48 ++ decimal n

/-- `open_file`; a file that cannot be opened leaves the old one in use. -/
def openFile (log : Log) (now : Stamp) (opens : Bool) : Log :=
  if opens then
    { log with
      path := some (stored 512 (log.dir ++ ascii "/" ++ log.portName ++ ascii "-" ++
        padded 4 now.year ++ padded 2 now.month ++ padded 2 now.day ++ ascii ".log"))
      current := (now.yday, now.year) }
  else log

def logOpen (dir portName : Bytes) (now : Stamp) (opens : Bool) : Log :=
  let name := if ascii "/dev/" <+: portName then portName.drop 5 else portName
  openFile ⟨dir, name.map fun c => if c = 47 then 45 else c, none, (0, 0), [], []⟩ now opens

def endLine (stamp : Stamp) (log : Log) : Log :=
  { log with
    written := log.written ++ (log.path.map fun path => ⟨path, stamp, log.lineBuf⟩).toList
    lineBuf := [] }

def keepByte (lineBuf : Bytes) (c : UInt8) : Bytes :=
  if lineBuf.length < 4096 - 1 then lineBuf ++ [c] else lineBuf

def scan (stamp : Stamp) : Bytes → Log → Log
  | [], log => log
  | 13 :: 10 :: data, log => scan stamp data (endLine stamp log)
  | c :: data, log =>
    if c = 10 ∨ c = 13 then scan stamp data (endLine stamp log)
    else scan stamp data { log with lineBuf := keepByte log.lineBuf c }

structure Chunk where
  data : Bytes
  stamp : Stamp
  opens : Bool

def logWrite (log : Log) (chunk : Chunk) : Log :=
  if log.path = none then log
  else
    let log := if (chunk.stamp.yday, chunk.stamp.year) ≠ log.current then
      openFile log chunk.stamp chunk.opens else log
    scan chunk.stamp chunk.data log

def Log.texts (log : Log) : List Bytes := log.written.map (·.text)

def lines : (line : Bytes) → Bytes → List Bytes × Bytes
  | line, [] => ([], line)
  | line, 13 :: 10 :: data => (line :: (lines [] data).1, (lines [] data).2)
  | line, c :: data =>
    if c = 10 ∨ c = 13 then (line :: (lines [] data).1, (lines [] data).2)
    else lines (keepByte line c) data

def Seam (xs ys : Bytes) : Prop := ¬ (xs.getLast? = some 13 ∧ ys.head? = some 10)

def Uncut : List Chunk → Prop
  | [] => True
  | chunk :: chunks => Seam chunk.data (chunks.flatMap (·.data)) ∧ Uncut chunks

section Chunking
variable {xs ys : Bytes}

theorem Seam.of_cons {c : UInt8} (h : Seam (c :: xs) ys) : Seam xs ys :=
  fun hcut => h ⟨by simp [hcut.1, getLast?_cons], hcut.2⟩

theorem lines_append (line : Bytes) (h : Seam xs ys) :
    lines line (xs ++ ys) =
      ((lines line xs).1 ++ (lines (lines line xs).2 ys).1, (lines (lines line xs).2 ys).2) := by
  induction line, xs using lines.induct with
  | case1 line => rfl
  | case2 line data ih =>
    simp [lines, ih h.of_cons.of_cons]
  | case3 line c data hcrlf hc ih =>
    have hnext : ∀ rest, c = 13 → data ++ ys = 10 :: rest → False := by
      intro rest hcr hrest
      cases data with
      | nil => exact h ⟨by simp [hcr], by simp_all⟩
      | cons d data => exact hcrlf data hcr (by simp_all)
    rw [cons_append, lines.eq_3 _ _ _ hcrlf, lines.eq_3 _ _ _ hnext, if_pos hc, if_pos hc, ih h.of_cons]
    simp
  | case4 line c data hcrlf hc ih =>
    have hnext : ∀ rest, c = 13 → data ++ ys = 10 :: rest → False := fun _ hcr => absurd (.inr hcr) hc
    rw [cons_append, lines.eq_3 _ _ _ hcrlf, lines.eq_3 _ _ _ hnext, if_neg hc, if_neg hc, ih h.of_cons]

/-- What a write adds to an open log. -/
structure Adds (log log' : Log) (data : Bytes) : Prop where
  path : log'.path.isSome
  texts : log'.texts = log.texts ++ (lines log.lineBuf data).1
  lineBuf : log'.lineBuf = (lines log.lineBuf data).2

theorem endLine_texts (stamp : Stamp) {log : Log} (h : log.path.isSome) :
    (endLine stamp log).texts = log.texts ++ [log.lineBuf] := by
  obtain ⟨path, hpath⟩ := Option.isSome_iff_exists.mp h
  simp [endLine, Log.texts, hpath]

theorem Adds.endLine {stamp : Stamp} {log log' : Log} {data rest : Bytes} (h : log.path.isSome)
    (hadds : Adds (endLine stamp log) log' rest)
    (hlines : lines log.lineBuf data = (log.lineBuf :: (lines [] rest).1, (lines [] rest).2)) :
    Adds log log' data := by
  obtain ⟨hpath, htexts, hbuf⟩ := hadds
  refine ⟨hpath, ?_, by rw [hlines, hbuf]; rfl⟩
  rw [htexts, endLine_texts stamp h, hlines, append_assoc]
  rfl

theorem scan_adds (stamp : Stamp) (data : Bytes) {log : Log} (h : log.path.isSome) :
    Adds log (scan stamp data log) data := by
  induction data, log using scan.induct stamp with
  | case1 log => exact ⟨h, by simp [scan, lines], rfl⟩
  | case2 data log ih => exact (ih h).endLine h (by rw [lines])
  | case3 c data log hcrlf hc ih =>
    rw [scan.eq_3 _ _ _ _ hcrlf, if_pos hc]
    exact (ih h).endLine h (by rw [lines.eq_3 _ _ _ hcrlf, if_pos hc])
  | case4 c data log hcrlf hc ih =>
    obtain ⟨hpath, htexts, hbuf⟩ := ih h
    have hlines : lines log.lineBuf (c :: data) = lines (keepByte log.lineBuf c) data := by
      rw [lines.eq_3 _ _ _ hcrlf, if_neg hc]
    rw [scan.eq_3 _ _ _ _ hcrlf, if_neg hc]
    exact ⟨hpath, by rw [hlines]; exact htexts, by rw [hlines]; exact hbuf⟩

theorem logWrite_adds {log : Log} (h : log.path.isSome) (chunk : Chunk) :
    Adds log (logWrite log chunk) chunk.data := by
  have hopen : log.path ≠ none := Option.isSome_iff_ne_none.mp h
  have hsame : ∀ log' : Log, log'.path.isSome → log'.written = log.written →
      log'.lineBuf = log.lineBuf → Adds log (scan chunk.stamp chunk.data log') chunk.data := by
    intro log' hpath hwritten hbuf
    obtain ⟨hpath', htexts, hbuf'⟩ := scan_adds chunk.stamp chunk.data hpath
    rw [hbuf] at htexts hbuf'
    exact ⟨hpath', by rw [htexts, Log.texts, Log.texts, hwritten], hbuf'⟩
  rw [logWrite, if_neg hopen]
  dsimp only [openFile]
  split_ifs
  · exact hsame _ rfl rfl rfl
  · exact hsame _ h rfl rfl
  · exact hsame _ h rfl rfl

/-- A run of writes that cuts no CR LF adds the lines of the whole stream. -/
theorem writes_add {log : Log} (h : log.path.isSome) {chunks : List Chunk} (huncut : Uncut chunks) :
    Adds log (chunks.foldl logWrite log) (chunks.flatMap (·.data)) := by
  induction chunks generalizing log with
  | nil => exact ⟨h, by simp [lines], rfl⟩
  | cons chunk chunks ih =>
    obtain ⟨hpath, htexts, hbuf⟩ := logWrite_adds h chunk
    obtain ⟨hpath', htexts', hbuf'⟩ := ih hpath huncut.2
    rw [hbuf] at htexts' hbuf'
    rw [flatMap_cons, foldl_cons]
    refine ⟨hpath', ?_, ?_⟩
    · rw [htexts', htexts, lines_append _ huncut.1, append_assoc]
    · rw [hbuf', lines_append _ huncut.1]

theorem writes_closed {log : Log} (h : log.path = none) (chunks : List Chunk) :
    chunks.foldl logWrite log = log := by
  induction chunks with
  | nil => rfl
  | cons chunk chunks ih => rw [foldl_cons, logWrite, if_pos h, ih]

end Chunking

/-- Two runs of writes of one stream write the same texts, whatever the times and the
rotations, as long as none of the chunks ends between a CR and its LF. -/
theorem texts_independent_of_chunks (log : Log) {chunks chunks' : List Chunk}
    (hsame : chunks.flatMap (·.data) = chunks'.flatMap (·.data)) (h : Uncut chunks)
    (h' : Uncut chunks') :
    (chunks.foldl logWrite log).texts = (chunks'.foldl logWrite log).texts := by
  cases hpath : log.path with
  | none => rw [writes_closed hpath, writes_closed hpath]
  | some path =>
    have hopen : log.path.isSome := by rw [hpath]; rfl
    rw [(writes_add hopen h).texts, (writes_add hopen h').texts, hsame]

def noon : Stamp := ⟨2024, 31, 2, 1, 12, 0, 0⟩

def openLog : Log := logOpen (ascii "/log") (ascii "/dev/ttyUSB0") noon true

def atNoon (data : Bytes) : Chunk := ⟨data, noon, true⟩

theorem texts_independent_of_chunks_crlf :
    ([atNoon [97], atNoon [13, 10]].foldl logWrite openLog).texts =
      ([atNoon [97, 13, 10]].foldl logWrite openLog).texts :=
  texts_independent_of_chunks openLog rfl ⟨by simp [Seam, atNoon], by simp [Seam, Uncut]⟩
    ⟨by simp [Seam], trivial⟩

/-- A CR LF in two chunks ends an empty line of its own. -/
theorem cut_crlf_adds_line :
    ([atNoon [97, 13], atNoon [10]].foldl logWrite openLog).texts = [[97], []] ∧
      ([atNoon [97, 13, 10]].foldl logWrite openLog).texts = [[97]] := by
  decide +kernel

end Smolmux.TextLog
