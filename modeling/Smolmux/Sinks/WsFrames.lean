import Smolmux.Sinks.WsHandshake

/-! The frames of `sinks/ws.c`: decoding in place, encoding, and the inbound half of the sink's
thread for one client, which turns text frames into lines for the broker. The frames a client
sends are written down in their own right, and the thread is held to them over every way their
bytes can arrive. -/

namespace Smolmux.Ws
open List

def readBufSize : Nat := 8192

def opCont : UInt8 := 0x0
def opText : UInt8 := 0x1
def opBinary : UInt8 := 0x2
def opClose : UInt8 := 0x8
def opPing : UInt8 := 0x9
def opPong : UInt8 := 0xA

def bigEndian (bytes : Bytes) : Nat := bytes.foldl (fun n c => n * 256 + c.toNat) 0

def bigEndianBytes : (width n : Nat) → Bytes
  | 0, _ => []
  | width + 1, n => bigEndianBytes width (n / 256) ++ [UInt8.ofNat n]

def unmask (mask data : Bytes) : Bytes := data.mapIdx fun i c => c ^^^ mask.getD (i % 4) 0

def headerSize (plen : Nat) : Nat := if plen = 126 then 4 else if plen = 127 then 10 else 2

/-- What `ws_decode_frame` returns: 0, -1, or a frame of `total` bytes. It unmasks in place, so
the buffer it leaves is part of the answer. -/
inductive Decoded where
  | incomplete
  | error
  | frame (total : Nat) (opcode : UInt8) (payload buf : Bytes)

def unmaskFrame (buf : Bytes) (hdr plen : Nat) (opcode : UInt8) : Decoded :=
  let payload := unmask ((buf.drop hdr).take 4) ((buf.drop (hdr + 4)).take plen)
  .frame (hdr + 4 + plen) opcode payload
    (buf.take (hdr + 4) ++ payload ++ buf.drop (hdr + 4 + plen))

def wsDecodeFrame (buf : Bytes) : Decoded :=
  if buf.length < 2 then .incomplete
  else
    let opcode := buf.getD 0 0 &&& 0x0F
    let plen := (buf.getD 1 0 &&& 0x7F).toNat
    let hdr := headerSize plen
    if buf.getD 1 0 >>> 7 &&& 1 = 0 then .error
    else if opcode = opCont then .error
    else if buf.length < hdr then .incomplete
    else
      let plen := if hdr = 2 then plen else bigEndian ((buf.drop 2).take (hdr - 2))
      if readBufSize < plen then .error
      else if readBufSize < hdr + 4 + plen then .error
      else if buf.length < hdr + 4 + plen then .incomplete
      else unmaskFrame buf hdr plen opcode

def wsEncodeFrame (cap : Nat) (opcode : UInt8) (data : Bytes) : Bytes :=
  let hdr := if data.length < 126 then 2 else if data.length < 65536 then 4 else 10
  if cap < data.length ∨ cap - data.length < hdr then []
  else
    (0x80 ||| opcode &&& 0x0F) ::
      (if data.length < 126 then [UInt8.ofNat data.length]
        else if data.length < 65536 then 126 :: bigEndianBytes 2 data.length
        else 127 :: bigEndianBytes 8 data.length) ++ data

/-- A client of the sink: its read buffer, what was written to the bridge and to the peer, and
whether it was removed. Writes succeed. -/
structure WsClient where
  wsBuf : Bytes := []
  bridge : Bytes := []
  peer : Bytes := []
  removed : Bool := false
deriving DecidableEq

def writeLine (c : WsClient) (payload : Bytes) : WsClient :=
  if readBufSize + 1 < payload.length + 1 then { c with removed := true }
  else { c with bridge := c.bridge ++ payload ++ [newline] }

def refuse (c : WsClient) : WsClient :=
  { c with peer := c.peer ++ wsEncodeFrame 128 opClose [0x03, 0xF1], removed := true }

def serveFrame (c : WsClient) (opcode : UInt8) (payload : Bytes) : WsClient :=
  if opcode = opText then writeLine c payload
  else if opcode = opPing then
    { c with peer := c.peer ++ wsEncodeFrame readBufSize opPong payload }
  else if opcode = opClose then { c with removed := true }
  else c

/-- The loop over the frames that are in the buffer. `left` bounds it: every frame it passes
takes bytes away. -/
def serveFrames : (left : Nat) → WsClient → WsClient
  | 0, c => c
  | left + 1, c =>
    if c.wsBuf = [] then c
    else
      match wsDecodeFrame c.wsBuf with
      | .incomplete => c
      | .error => refuse c
      | .frame total opcode payload buf =>
        let c := serveFrame { c with wsBuf := buf } opcode payload
        if c.removed then c else serveFrames left { c with wsBuf := c.wsBuf.drop total }

def wsReadable (c : WsClient) (unread : Bytes) (n : Nat) : WsClient × Bytes :=
  let space := readBufSize - c.wsBuf.length
  if space = 0 then ({ c with removed := true }, unread)
  else
    let got := unread.take (min n space)
    if got = [] then ({ c with removed := true }, unread)
    else
      (serveFrames (c.wsBuf ++ got).length { c with wsBuf := c.wsBuf ++ got },
        unread.drop (min n space))

def poll (s : WsClient × Bytes) (n : Nat) : WsClient × Bytes :=
  if s.1.removed = true ∨ s.2 = [] then s else wsReadable s.1 s.2 (n + 1)

def polls (sent : Bytes) (reads : List Nat) : WsClient × Bytes := reads.foldl poll ({}, sent)

section Frames

inductive LengthField where
  | seven | sixteen | sixtyFour

def LengthField.size : LengthField → Nat
  | .seven => 2
  | .sixteen => 4
  | .sixtyFour => 10

def LengthField.Fits : LengthField → Nat → Prop
  | .seven, n => n < 126
  | .sixteen, n => n < 256 ^ 2
  | .sixtyFour, n => n < 256 ^ 8

def LengthField.code : LengthField → Nat → UInt8
  | .seven, n => UInt8.ofNat (128 + n)
  | .sixteen, _ => 254
  | .sixtyFour, _ => 255

structure WsFrame where
  first : UInt8
  field : LengthField
  mask : Bytes
  payload : Bytes
  mask_length : mask.length = 4
  fits : field.Fits payload.length

def WsFrame.opcode (f : WsFrame) : UInt8 := f.first &&& 0x0F

def WsFrame.final (f : WsFrame) : Bool := f.first >>> 7 == 1

def WsFrame.header (f : WsFrame) : Bytes :=
  f.first :: f.field.code f.payload.length :: bigEndianBytes (f.field.size - 2) f.payload.length

def WsFrame.bytes (f : WsFrame) : Bytes := f.header ++ f.mask ++ unmask f.mask f.payload

def WsFrame.line (f : WsFrame) : Bytes :=
  if f.opcode = opText then f.payload ++ [newline] else []

def WsFrame.answer (f : WsFrame) : Bytes :=
  if f.opcode = opPing then wsEncodeFrame readBufSize opPong f.payload else []

@[simp]
theorem unmask_length (mask data : Bytes) : (unmask mask data).length = data.length := by
  simp [unmask, UInt8.xor_assoc]

theorem unmask_unmask (mask data : Bytes) : unmask mask (unmask mask data) = data := by
  refine ext_getElem (by simp) fun i _ _ => ?_
  simp [unmask, UInt8.xor_assoc]

@[simp]
theorem bigEndianBytes_length (width n : Nat) : (bigEndianBytes width n).length = width := by
  induction width generalizing n with
  | zero => rfl
  | succ width ih => simp [bigEndianBytes, ih]

theorem bigEndian_bytes {width n : Nat} (h : n < 256 ^ width) :
    bigEndian (bigEndianBytes width n) = n := by
  induction width generalizing n with
  | zero => simp at h; simp [h, bigEndianBytes, bigEndian]
  | succ width ih =>
    have hdiv : n / 256 < 256 ^ width := by rw [Nat.pow_succ] at h; omega
    have hstep : ∀ bytes c, bigEndian (bytes ++ [c]) = bigEndian bytes * 256 + c.toNat := by
      simp [bigEndian]
    rw [bigEndianBytes, hstep, ih hdiv, UInt8.toNat_ofNat']
    omega

theorem WsFrame.header_length (f : WsFrame) : f.header.length = f.field.size := by
  cases h : f.field <;> simp [header, LengthField.size, h]

theorem WsFrame.bytes_length (f : WsFrame) :
    f.bytes.length = f.field.size + 4 + f.payload.length := by
  simp [bytes, header_length, f.mask_length]; omega

theorem LengthField.code_spec {field : LengthField} {n : Nat} (h : field.Fits n) :
    field.code n >>> 7 &&& 1 ≠ 0 ∧ headerSize (field.code n &&& 0x7F).toNat = field.size ∧
      (field.size = 2 → (field.code n &&& 0x7F).toNat = n) := by
  cases field with
  | seven =>
    have hall : ∀ n : Fin 126, UInt8.ofNat (128 + n) >>> 7 &&& 1 ≠ 0 ∧
        (UInt8.ofNat (128 + n) &&& 0x7F).toNat = n := by decide +kernel
    have hn := hall ⟨n, h⟩
    refine ⟨hn.1, ?_, fun _ => hn.2⟩
    simp only [code, hn.2]
    simp only [Fits] at h
    rw [headerSize, if_neg (by omega), if_neg (by omega)]
    rfl
  | sixteen =>
    exact ⟨show (254 : UInt8) >>> 7 &&& 1 ≠ 0 by decide,
      show headerSize ((254 : UInt8) &&& 0x7F).toNat = 4 by decide, by simp [size]⟩
  | sixtyFour =>
    exact ⟨show (255 : UInt8) >>> 7 &&& 1 ≠ 0 by decide,
      show headerSize ((255 : UInt8) &&& 0x7F).toNat = 10 by decide, by simp [size]⟩

variable {f : WsFrame} {p : Bytes}

/-- What is decoded from the bytes of a frame that have arrived: nothing before the header is
whole, then an error if the frame can never fit, and the frame when all of it is there. -/
theorem decode_eq {rest : Bytes} (hop : f.opcode ≠ opCont) (hp : p <+: f.bytes ++ rest) :
    wsDecodeFrame p =
      if p.length < f.field.size then .incomplete
      else if readBufSize < f.bytes.length then .error
      else if p.length < f.bytes.length then .incomplete
      else unmaskFrame p f.field.size f.payload.length f.opcode := by
  have hcode := LengthField.code_spec f.fits
  have hsize : 2 ≤ f.field.size := by cases f.field <;> simp [LengthField.size]
  rw [wsDecodeFrame]
  by_cases hshort : p.length < 2
  · rw [if_pos hshort, if_pos (by omega)]
  rw [if_neg hshort]
  -- the two first bytes are there
  obtain ⟨q, rfl, hq⟩ : ∃ q, p = f.first :: f.field.code f.payload.length :: q ∧
      q <+: bigEndianBytes (f.field.size - 2) f.payload.length ++
        (f.mask ++ unmask f.mask f.payload ++ rest) := by
    match p, hshort with
    | a :: b :: q, _ =>
      simp only [WsFrame.bytes, WsFrame.header, cons_append, cons_prefix_cons,
        append_assoc] at hp
      exact ⟨q, by rw [hp.1, hp.2.1], by simpa using hp.2.2⟩
    | [], h => simp at h
    | [_], h => simp at h
  simp only [getD_cons_zero, getD_cons_succ]
  rw [if_neg hcode.1, if_neg (show ¬f.first &&& 0x0F = opCont from hop), hcode.2.1]
  by_cases hhdr : (f.first :: f.field.code f.payload.length :: q).length < f.field.size
  · rw [if_pos hhdr, if_pos hhdr]
  rw [if_neg hhdr, if_neg hhdr]
  -- the length field is there too, and says the payload's length
  have hplen : (if f.field.size = 2 then (f.field.code f.payload.length &&& 0x7F).toNat
      else bigEndian (((f.first :: f.field.code f.payload.length :: q).drop 2).take
        (f.field.size - 2))) = f.payload.length := by
    split
    · next h2 => exact hcode.2.2 h2
    · next h2 =>
      have htake : q.take (f.field.size - 2) =
          bigEndianBytes (f.field.size - 2) f.payload.length := by
        have hle : f.field.size - 2 ≤ q.length := by simp at hhdr; omega
        have := hq.take (f.field.size - 2)
        rw [take_left' (by simp)] at this
        exact this.eq_of_length (by simp [hle])
      have hfit : f.payload.length < 256 ^ (f.field.size - 2) := by
        have := f.fits
        revert this h2
        cases f.field <;> simp [LengthField.size, LengthField.Fits]
      simp only [drop_succ_cons, drop_zero, htake]
      exact bigEndian_bytes hfit
  rw [hplen, ← f.bytes_length]
  by_cases hbig : readBufSize < f.payload.length
  · rw [if_pos hbig, if_pos (by rw [f.bytes_length]; omega)]
  · rw [if_neg hbig]
    rfl

theorem decode_whole (hop : f.opcode ≠ opCont) (hfit : f.bytes.length ≤ readBufSize)
    (rest : Bytes) :
    ∃ buf, wsDecodeFrame (f.bytes ++ rest) = .frame f.bytes.length f.opcode f.payload buf ∧
      buf.drop f.bytes.length = rest := by
  have hlen : f.bytes.length ≤ (f.bytes ++ rest).length := by simp
  have hsize := f.bytes_length
  rw [decode_eq hop prefix_rfl, if_neg (by omega), if_neg (by omega), if_neg (by omega)]
  have hmask : ((f.bytes ++ rest).drop f.field.size).take 4 = f.mask := by
    rw [WsFrame.bytes, append_assoc, append_assoc,
      drop_left' f.header_length, take_left' f.mask_length]
  have hhead : (f.header ++ f.mask).length = f.field.size + 4 := by
    simp [f.header_length, f.mask_length]
  have hdata : ((f.bytes ++ rest).drop (f.field.size + 4)).take f.payload.length =
      unmask f.mask f.payload := by
    rw [WsFrame.bytes, append_assoc, drop_left' hhead, take_left' (by simp)]
  rw [unmaskFrame, hmask, hdata, unmask_unmask, ← hsize]
  refine ⟨_, rfl, ?_⟩
  rw [drop_left' (by simp [hsize]; omega), drop_left]

end Frames

section Inbound

structure WsFrame.Whole (f : WsFrame) : Prop where
  opcode : f.opcode ∈ [opText, opBinary, opPing, opPong]
  final : f.final = true
  fits : f.bytes.length ≤ readBufSize

/-- Bytes no frame is ever taken from: they are refused, and before that there is room for
more of them. -/
def Refused (tail : Bytes) : Prop :=
  ∀ p, p <+: tail →
    wsDecodeFrame p = .error ∨ wsDecodeFrame p = .incomplete ∧ p.length < readBufSize

def closeFrame : Bytes := wsEncodeFrame 128 opClose [0x03, 0xF1]

/-- What became of a client `c` that is sent `frames` and then `tail`, with `unread` still in
the socket: it waits for the rest of a frame, or was refused at the tail. -/
inductive Serves (tail unread : Bytes) (c : WsClient) : List WsFrame → WsClient → Prop
  | waits (served left : List WsFrame) {c' : WsClient}
      (arrived : c'.wsBuf ++ unread = left.flatMap WsFrame.bytes ++ tail)
      (incomplete : wsDecodeFrame c'.wsBuf = .incomplete) (room : c'.wsBuf.length < readBufSize)
      (bridge : c'.bridge = c.bridge ++ served.flatMap WsFrame.line)
      (peer : c'.peer = c.peer ++ served.flatMap WsFrame.answer)
      (stays : c'.removed = false) : Serves tail unread c (served ++ left) c'
  | refuses {frames : List WsFrame} {c' : WsClient} (tail_ne : tail ≠ [])
      (bridge : c'.bridge = c.bridge ++ frames.flatMap WsFrame.line)
      (peer : c'.peer = c.peer ++ frames.flatMap WsFrame.answer ++ closeFrame)
      (gone : c'.removed = true) : Serves tail unread c frames c'

variable {tail unread : Bytes} {c c' : WsClient} {f : WsFrame} {frames left : List WsFrame}

theorem WsFrame.Whole.not_cont (h : f.Whole) : f.opcode ≠ opCont := by
  intro hop
  have := h.opcode
  rw [hop] at this
  revert this
  decide

theorem WsFrame.Whole.serveFrame_eq (h : f.Whole) (buf : Bytes) :
    serveFrame { c with wsBuf := buf } f.opcode f.payload =
      { c with wsBuf := buf, bridge := c.bridge ++ f.line, peer := c.peer ++ f.answer } := by
  have hlen : f.payload.length ≤ readBufSize := by
    have := h.fits
    rw [f.bytes_length] at this
    omega
  have hop := h.opcode
  simp only [mem_cons, not_mem_nil, or_false] at hop
  rcases hop with hop | hop | hop | hop <;>
    simp [serveFrame, writeLine, WsFrame.line, WsFrame.answer, hop, opText, opBinary, opPing,
      opPong, opClose, Nat.not_lt.mpr hlen]

theorem Serves.here (harrived : c.wsBuf ++ unread = frames.flatMap WsFrame.bytes ++ tail)
    (hinc : wsDecodeFrame c.wsBuf = .incomplete) (hroom : c.wsBuf.length < readBufSize)
    (hstays : c.removed = false) : Serves tail unread c frames c :=
  .waits [] frames harrived hinc hroom (by simp) (by simp) hstays

theorem Serves.here_of_nil (harrived : c.wsBuf ++ unread = frames.flatMap WsFrame.bytes ++ tail)
    (hnil : c.wsBuf = []) (hstays : c.removed = false) : Serves tail unread c frames c :=
  .here harrived (by rw [hnil]; rfl) (by rw [hnil]; decide) hstays

theorem Serves.after {c₀ : WsClient} (served : List WsFrame) (h : Serves tail unread c left c')
    (hbridge : c.bridge = c₀.bridge ++ served.flatMap WsFrame.line)
    (hpeer : c.peer = c₀.peer ++ served.flatMap WsFrame.answer) :
    Serves tail unread c₀ (served ++ left) c' := by
  cases h with
  | waits more left arrived incomplete room bridge peer stays =>
    rw [← append_assoc]
    exact .waits (served ++ more) left arrived incomplete room (by simp [bridge, hbridge])
      (by simp [peer, hpeer]) stays
  | refuses tail_ne bridge peer gone =>
    exact .refuses tail_ne (by simp [bridge, hbridge]) (by simp [peer, hpeer]) gone

theorem serves_serveFrames (htail : Refused tail) (fuel : Nat) (hframes : ∀ f ∈ frames, f.Whole)
    (harrived : c.wsBuf ++ unread = frames.flatMap WsFrame.bytes ++ tail)
    (hfuel : c.wsBuf.length ≤ fuel) (hstays : c.removed = false) :
    Serves tail unread c frames (serveFrames fuel c) := by
  induction fuel generalizing c frames with
  | zero =>
    exact .here_of_nil harrived (length_eq_zero_iff.mp (by omega)) hstays
  | succ fuel ih =>
    rw [serveFrames]
    split
    · next hnil => exact .here_of_nil harrived hnil hstays
    · next hne =>
      cases frames with
      | nil =>
        -- only the tail is left
        have hpre : c.wsBuf <+: tail := ⟨unread, by simpa using harrived⟩
        rcases htail _ hpre with herr | ⟨hinc, hroom⟩
        · rw [herr]
          refine .refuses ?_ (by simp [refuse]) (by simp [refuse, closeFrame]) rfl
          rintro rfl
          exact hne (prefix_nil.mp hpre)
        · rw [hinc]
          exact .here harrived hinc hroom hstays
      | cons f frames =>
        have hf := hframes f (by simp)
        have hpre : c.wsBuf <+: f.bytes ++ (frames.flatMap WsFrame.bytes ++ tail) :=
          ⟨unread, by simpa using harrived⟩
        by_cases hwhole : f.bytes.length ≤ c.wsBuf.length
        · obtain ⟨rest, hrest⟩ : f.bytes <+: c.wsBuf :=
            prefix_of_prefix_length_le (prefix_append _ _) hpre hwhole
          obtain ⟨buf, hdec, hdrop⟩ := decode_whole hf.not_cont hf.fits rest
          rw [← hrest, hdec]
          simp only [hf.serveFrame_eq]
          simp only [hstays, Bool.false_eq_true, if_false, hdrop]
          have hpos : 0 < f.bytes.length := by rw [f.bytes_length]; omega
          have hlen := congrArg List.length hrest
          rw [length_append] at hlen
          rw [← hrest] at harrived
          have hnext := ih (c := ⟨rest, c.bridge ++ f.line, c.peer ++ f.answer, false⟩)
            (fun g hg => hframes g (mem_cons_of_mem f hg)) (by simpa using harrived)
            (show rest.length ≤ fuel by omega) rfl
          exact hnext.after [f] (by simp) (by simp)
        · have hinc : wsDecodeFrame c.wsBuf = .incomplete := by
            rw [decode_eq hf.not_cont hpre, if_neg (Nat.not_lt.mpr hf.fits),
              if_pos (show c.wsBuf.length < f.bytes.length by omega), ite_self]
          rw [hinc]
          exact .here harrived hinc (by have := hf.fits; omega) hstays

theorem serves_poll (htail : Refused tail) (hframes : ∀ f ∈ frames, f.Whole)
    {s : WsClient × Bytes} (h : Serves tail s.2 {} frames s.1) (n : Nat) :
    Serves tail (poll s n).2 {} frames (poll s n).1 ∧
      ((poll s n).1.removed ∨ (poll s n).2.length ≤ s.2.length - 1) := by
  obtain ⟨c, unread⟩ := s
  rw [poll]
  split
  · next hidle =>
    refine ⟨h, hidle.imp_right fun hnil => ?_⟩
    simp only at hnil ⊢
    simp [hnil]
  · next hbusy =>
    cases h with
    | refuses _ _ _ gone => exact absurd (.inl gone) hbusy
    | waits served left arrived incomplete room bridge peer stays =>
      have hspace : readBufSize - c.wsBuf.length ≠ 0 := by simp only at room; omega
      have hne : unread ≠ [] := fun hnil => hbusy (.inr hnil)
      have hgot : unread.take (min (n + 1) (readBufSize - c.wsBuf.length)) ≠ [] := by
        simp [take_eq_nil_iff, hspace, hne]
      simp only [wsReadable, if_neg hspace, if_neg hgot]
      refine ⟨Serves.after served (serves_serveFrames htail _
        (fun f hf => hframes f (by simp [hf])) ?_ le_rfl stays) bridge peer, .inr ?_⟩
      · rw [append_assoc, take_append_drop]
        exact arrived
      · have := length_pos_iff.mpr hne
        simp only [length_drop]
        omega

/-- Over all reads: what holds of the client, and that it has read everything, or was refused,
once there were as many reads as bytes. -/
theorem serves_polls (htail : Refused tail) (hframes : ∀ f ∈ frames, f.Whole) (reads : List Nat) :
    let s := polls (frames.flatMap WsFrame.bytes ++ tail) reads
    Serves tail s.2 {} frames s.1 ∧ (s.1.removed ∨
      s.2.length ≤ (frames.flatMap WsFrame.bytes ++ tail).length - reads.length) := by
  induction reads using List.reverseRecOn with
  | nil => exact ⟨.here_of_nil rfl rfl rfl, .inr le_rfl⟩
  | append_singleton reads n ih =>
    simp only [polls, foldl_append, foldl_cons, foldl_nil] at ih ⊢
    have hstep := serves_poll htail hframes ih.1 n
    refine ⟨hstep.1, ?_⟩
    rcases hstep.2 with hgone | hless
    · exact .inl hgone
    · rcases ih.2 with hgone | hlen
      · left
        rw [poll, if_pos (.inl hgone)]
        exact hgone
      · right
        simp only [length_append, length_singleton] at hlen ⊢
        omega

theorem Serves.all (h : Serves tail [] c frames c') (hframes : ∀ f ∈ frames, f.Whole)
    (hstays : c'.removed = false) : c'.bridge = c.bridge ++ frames.flatMap WsFrame.line ∧
      c'.wsBuf = tail ∧ wsDecodeFrame tail = .incomplete := by
  cases h with
  | refuses _ _ _ gone => rw [gone] at hstays; cases hstays
  | waits served left arrived incomplete room bridge peer _ =>
    rw [append_nil] at arrived
    cases left with
    | nil =>
      simp only [flatMap_nil, nil_append] at arrived
      exact ⟨by simpa using bridge, arrived, arrived ▸ incomplete⟩
    | cons f left =>
      have hf := hframes f (by simp)
      obtain ⟨buf, hdec, -⟩ := decode_whole hf.not_cont hf.fits
        (left.flatMap WsFrame.bytes ++ tail)
      rw [arrived, flatMap_cons, append_assoc, hdec] at incomplete
      cases incomplete

theorem refused_nil : Refused [] := by
  intro p hp
  rw [prefix_nil.mp hp]
  exact .inr ⟨rfl, by decide⟩

/-- A client that sends whole frames is never removed. Its lines are those of its text frames,
in order: at any time those of the frames whose bytes have been read, in the end all. -/
theorem text_frames_become_lines (frames : List WsFrame) (hframes : ∀ f ∈ frames, f.Whole)
    (reads : List Nat) :
    let sent := frames.flatMap WsFrame.bytes
    let s := polls sent reads
    s.1.removed = false ∧
      (∃ served left, frames = served ++ left ∧ s.1.bridge = served.flatMap WsFrame.line ∧
        s.1.wsBuf ++ s.2 = left.flatMap WsFrame.bytes) ∧
      (s.2 = [] → s.1.bridge = frames.flatMap WsFrame.line) ∧
      (sent.length ≤ reads.length → s.2 = []) := by
  have hrun := serves_polls refused_nil hframes reads
  simp only [append_nil] at hrun ⊢
  obtain ⟨s, hs⟩ : ∃ s, polls (frames.flatMap WsFrame.bytes) reads = s := ⟨_, rfl⟩
  rw [hs] at hrun ⊢
  obtain ⟨hserves, hless⟩ := hrun
  have hstays : s.1.removed = false := by
    cases hserves with
    | waits _ _ _ _ _ _ _ stays => exact stays
    | refuses tail_ne => exact absurd rfl tail_ne
  refine ⟨hstays, ?_, fun hnil => ?_, fun hlen => ?_⟩
  · cases hserves with
    | refuses tail_ne => exact absurd rfl tail_ne
    | waits served left arrived _ _ bridge _ _ =>
      exact ⟨served, left, rfl, by simpa using bridge, by simpa using arrived⟩
  · rw [hnil] at hserves
    simpa using (hserves.all hframes hstays).1
  · rcases hless with hgone | hless
    · rw [hgone] at hstays
      cases hstays
    · exact length_eq_zero_iff.mp (by omega)

def shortFrame (first : UInt8) (payload : Bytes) (h : payload.length < 126) : WsFrame where
  first := first
  field := .seven
  mask := [0x37, 0xFA, 0x21, 0x3D]
  payload := payload
  mask_length := rfl
  fits := h

theorem text_frames_become_lines_pieces :
    let frames := [shortFrame 0x81 (ascii "one") (by decide), shortFrame 0x89 [] (by decide),
      shortFrame 0x81 (ascii "two") (by decide)]
    let s := polls (frames.flatMap WsFrame.bytes) [0, 4, 8, 30]
    (∀ f ∈ frames, f.Whole) ∧ s.1.removed = false ∧ s.1.bridge = ascii "one\ntwo\n" := by
  intro frames s
  have hframes : ∀ f ∈ frames, f.Whole := by
    simp only [frames, forall_mem_cons, not_mem_nil, false_imp_iff, implies_true,
      and_true]
    exact ⟨⟨by decide, by decide, by decide⟩, ⟨by decide, by decide, by decide⟩,
      ⟨by decide, by decide, by decide⟩⟩
  have hrun := text_frames_become_lines frames hframes [0, 4, 8, 30]
  exact ⟨hframes, hrun.1, (hrun.2.2.1 (by decide +kernel)).trans (by decide +kernel)⟩

theorem refused_oversized (hop : f.opcode ≠ opCont) (hbig : readBufSize < f.bytes.length)
    (rest : Bytes) : Refused (f.bytes ++ rest) := by
  intro p hp
  have hsize : f.field.size ≤ 10 := by cases f.field <;> decide
  rw [decode_eq hop hp]
  by_cases hshort : p.length < f.field.size
  · rw [if_pos hshort]
    exact .inr ⟨rfl, hshort.trans_le (hsize.trans (by decide))⟩
  · rw [if_neg hshort, if_pos hbig]
    exact .inl rfl

/-- A message whose first frame, a fragment or not, cannot fit into the buffer is refused before any of it is
served: only the frames before it became lines, and the client is told with a close. -/
theorem oversized_fragment_refused (frames : List WsFrame) (hframes : ∀ f ∈ frames, f.Whole)
    (first : WsFrame) (htext : first.opcode = opText)
    (hbig : readBufSize < first.bytes.length) (rest : Bytes) (reads : List Nat) :
    let sent := frames.flatMap WsFrame.bytes ++ (first.bytes ++ rest)
    let c := (polls sent reads).1
    c.bridge <+: frames.flatMap WsFrame.line ∧
      (c.removed = true → c.bridge = frames.flatMap WsFrame.line ∧
        c.peer = frames.flatMap WsFrame.answer ++ closeFrame) ∧
      (sent.length ≤ reads.length → c.removed = true) := by
  have hop : first.opcode ≠ opCont := by rw [htext]; decide
  obtain ⟨hserves, hless⟩ := serves_polls (refused_oversized hop hbig rest) hframes reads
  obtain ⟨s, hs⟩ : ∃ s, polls (frames.flatMap WsFrame.bytes ++ (first.bytes ++ rest)) reads = s :=
    ⟨_, rfl⟩
  simp only [hs] at hserves hless ⊢
  refine ⟨?_, fun hgone => ?_, fun hlen => ?_⟩
  · cases hserves with
    | waits served left _ _ _ bridge _ _ =>
      exact ⟨left.flatMap WsFrame.line, by rw [bridge]; simp⟩
    | refuses _ bridge _ _ => exact ⟨[], by rw [bridge]; simp⟩
  · cases hserves with
    | waits _ _ _ _ _ _ _ stays => rw [stays] at hgone; cases hgone
    | refuses _ bridge peer _ => exact ⟨by simpa using bridge, by simpa using peer⟩
  · refine hless.elim id fun hless => ?_
    have hnil : s.2 = [] := length_eq_zero_iff.mp (by omega)
    rw [hnil] at hserves
    by_contra hstays
    have hinc := (hserves.all hframes (by simpa using hstays)).2.2
    have hsize := first.bytes_length
    rw [decode_eq hop prefix_rfl, if_neg (by simp; omega), if_pos hbig] at hinc
    cases hinc

def longFragment : WsFrame where
  first := 0x01
  field := .sixteen
  mask := [0, 0, 0, 0]
  payload := List.replicate 9000 0x61
  mask_length := rfl
  fits := by rw [length_replicate]; exact Nat.lt_of_sub_ne_zero (by decide)

theorem oversized_fragment_refused_once :
    longFragment.opcode = opText ∧ longFragment.final = false ∧
      ∃ reads, (polls (longFragment.bytes ++ [0x80]) reads).1.bridge = [] ∧
        (polls (longFragment.bytes ++ [0x80]) reads).1.removed = true := by
  have hbig : readBufSize < longFragment.bytes.length := by
    rw [WsFrame.bytes_length, show longFragment.payload.length = 9000 from length_replicate]
    decide
  obtain ⟨reads, hreads⟩ : ∃ reads : List Nat,
      (longFragment.bytes ++ [0x80]).length ≤ reads.length :=
    ⟨List.replicate _ 0, length_replicate.ge⟩
  have hrun := oversized_fragment_refused [] (fun _ h => nomatch h) longFragment rfl hbig [0x80] reads
  simp only [flatMap_nil, nil_append, prefix_nil] at hrun
  exact ⟨rfl, rfl, reads, hrun.1, hrun.2.2 hreads⟩

/-- The first fragment of a message that fits becomes a line; the close comes only with the
second. -/
theorem first_fragment_forwarded :
    let first := shortFrame 0x01 (ascii "he") (by decide)
    let second := shortFrame 0x80 (ascii "llo") (by decide)
    first.opcode = opText ∧ first.final = false ∧ second.opcode = opCont ∧
      second.final = true ∧
      (polls (first.bytes ++ second.bytes) [30]).1.bridge = ascii "he\n" ∧
      (polls (first.bytes ++ second.bytes) [30]).1.peer = closeFrame := by
  decide +kernel

end Inbound

end Smolmux.Ws
