import Smolmux.Fips180

/-! The hash of the WebSocket handshake (`util/sha1.c`), and that it is the SHA-1 of the
standard. -/

namespace Smolmux.Sha1
open Fips180 List

def rotl32 (x n : UInt32) : UInt32 := (x <<< n) ||| (x >>> (32 - n))

def loadWord (block : Bytes) (i : Nat) : UInt32 :=
  ((block.getD (i * 4) 0).toUInt32 <<< 24) ||| ((block.getD (i * 4 + 1) 0).toUInt32 <<< 16) |||
    ((block.getD (i * 4 + 2) 0).toUInt32 <<< 8) ||| (block.getD (i * 4 + 3) 0).toUInt32

def expandWords (w : List UInt32) (i : Nat) : List UInt32 :=
  w ++ [rotl32 (w.getD (i - 3) 0 ^^^ w.getD (i - 8) 0 ^^^ w.getD (i - 14) 0 ^^^ w.getD (i - 16) 0) 1]

def sha1Words (block : Bytes) : List UInt32 :=
  (List.range' 16 64).foldl expandWords ((List.range 16).map (loadWord block))

def sha1Round (w : List UInt32) (s : Hash) (i : Nat) : Hash :=
  let fk :=
    if i < 20 then ((s.b &&& s.c) ||| (~~~s.b &&& s.d), 0x5A827999)
    else if i < 40 then (s.b ^^^ s.c ^^^ s.d, 0x6ED9EBA1)
    else if i < 60 then ((s.b &&& s.c) ||| (s.b &&& s.d) ||| (s.c &&& s.d), 0x8F1BBCDC)
    else (s.b ^^^ s.c ^^^ s.d, 0xCA62C1D6)
  let tmp := rotl32 s.a 5 + fk.1 + s.e + fk.2 + w.getD i 0
  ⟨tmp, s.a, rotl32 s.b 30, s.c, s.d⟩

def sha1Block (state : Hash) (block : Bytes) : Hash :=
  let s := (List.range 80).foldl (sha1Round (sha1Words block)) state
  ⟨state.a + s.a, state.b + s.b, state.c + s.c, state.d + s.d, state.e + s.e⟩

/-- A loop over blocks from index `i` on, as long as there are more; it ends with the index
that it stops at. -/
def blockLoop (more : Nat → Bool) (data : Bytes) : (left i : Nat) → Hash → Nat × Hash
  | 0, i, state => (i, state)
  | left + 1, i, state =>
    if more i then blockLoop more data left (i + 64) (sha1Block state ((data.drop i).take 64))
    else (i, state)

def putLength (pad : Bytes) (padLen : Nat) (bits : UInt64) : Bytes :=
  (List.range 8).foldl (fun pad j => pad.set (padLen - 8 + j) (bits >>> (56 - 8 * j).toUInt64).toUInt8)
    pad

/-- What is left of the data with its padding, one block or two. -/
def sha1Pad (rest : Bytes) (len : Nat) : Bytes :=
  let pad := rest ++ [0x80]
  let padLen := if pad.length ≤ 56 then 64 else 128
  let pad := pad ++ List.replicate (padLen - pad.length) 0
  putLength pad padLen (len.toUInt64 * 8)

def putWord (x : UInt32) : Bytes :=
  [(x >>> 24).toUInt8, (x >>> 16).toUInt8, (x >>> 8).toUInt8, x.toUInt8]

def sha1 (data : Bytes) : Bytes :=
  let r := blockLoop (fun i => i + 64 ≤ data.length) data data.length 0
    ⟨0x67452301, 0xEFCDAB89, 0x98BADCFE, 0x10325476, 0xC3D2E1F0⟩
  let pad := sha1Pad (data.drop r.1) data.length
  let state := (blockLoop (fun j => j < pad.length) pad pad.length 0 r.2).2
  putWord state.a ++ putWord state.b ++ putWord state.c ++ putWord state.d ++ putWord state.e

theorem rotl32_eq (x n : UInt32) : rotl32 x n = rotl n x := rfl

theorem uint32_ext {x y : UInt32} (h : ∀ i < 32, x.toBitVec.getLsbD i = y.toBitVec.getLsbD i) :
    x = y := UInt32.toBitVec_inj.mp (BitVec.eq_of_getLsbD_eq h)

theorem choose_eq (x y z : UInt32) : (x &&& y) ||| (~~~x &&& z) = ch x y z := by
  refine uint32_ext fun i hi => ?_
  simp only [ch, UInt32.toBitVec_or, UInt32.toBitVec_and, UInt32.toBitVec_xor, UInt32.toBitVec_not,
    BitVec.getLsbD_or, BitVec.getLsbD_and, BitVec.getLsbD_xor, BitVec.getLsbD_not, hi]
  cases x.toBitVec.getLsbD i <;> simp

theorem majority_eq (x y z : UInt32) :
    (x &&& y) ||| (x &&& z) ||| (y &&& z) = maj x y z := by
  refine uint32_ext fun i hi => ?_
  simp only [maj, UInt32.toBitVec_or, UInt32.toBitVec_and, UInt32.toBitVec_xor,
    BitVec.getLsbD_or, BitVec.getLsbD_and, BitVec.getLsbD_xor]
  cases x.toBitVec.getLsbD i <;> cases y.toBitVec.getLsbD i <;> cases z.toBitVec.getLsbD i <;> rfl

theorem number_four (a b c d : UInt8) : number [a, b, c, d] =
    2 ^ 8 * (2 ^ 8 * (2 ^ 8 * a.toNat + b.toNat) + c.toNat) + d.toNat := by
  simp [number]

theorem or_shifted (a b c d : UInt8) :
    (a.toUInt32 <<< 24) ||| (b.toUInt32 <<< 16) ||| (c.toUInt32 <<< 8) ||| d.toUInt32 =
      UInt32.ofNat (number [a, b, c, d]) := by
  have ha := a.toNat_lt
  have hb := b.toNat_lt
  have hc := c.toNat_lt
  have hd := d.toNat_lt
  have hshift : ∀ x : UInt8, (x.toUInt32 <<< 24).toNat = 2 ^ 24 * x.toNat ∧
      (x.toUInt32 <<< 16).toNat = 2 ^ 16 * x.toNat ∧
      (x.toUInt32 <<< 8).toNat = 2 ^ 8 * x.toNat := by
    intro x
    have hx := x.toNat_lt
    simp only [UInt32.toNat_shiftLeft, UInt8.toNat_toUInt32, Nat.shiftLeft_eq]
    refine ⟨?_, ?_, ?_⟩
    · change x.toNat * 2 ^ 24 % 2 ^ 32 = _
      omega
    · change x.toNat * 2 ^ 16 % 2 ^ 32 = _
      omega
    · change x.toNat * 2 ^ 8 % 2 ^ 32 = _
      omega
  apply UInt32.toNat_inj.mp
  rw [UInt32.toNat_or, UInt32.toNat_or, UInt32.toNat_or, (hshift a).1, (hshift b).2.1,
    (hshift c).2.2, UInt8.toNat_toUInt32, UInt32.toNat_ofNat_of_lt', number_four]
  · -- each byte lies below the bits of those before it
    rw [← Nat.two_pow_add_eq_or_of_lt (by omega : 2 ^ 16 * b.toNat < 2 ^ 24)]
    rw [show 2 ^ 24 * a.toNat + 2 ^ 16 * b.toNat = 2 ^ 16 * (2 ^ 8 * a.toNat + b.toNat) by omega,
      ← Nat.two_pow_add_eq_or_of_lt (by omega : 2 ^ 8 * c.toNat < 2 ^ 16)]
    rw [show 2 ^ 16 * (2 ^ 8 * a.toNat + b.toNat) + 2 ^ 8 * c.toNat =
        2 ^ 8 * (2 ^ 8 * (2 ^ 8 * a.toNat + b.toNat) + c.toNat) by omega,
      ← Nat.two_pow_add_eq_or_of_lt hd]
  · rw [number_four]
    change _ < 2 ^ 32
    omega

theorem loadWord_eq {block : Bytes} (hblock : block.length = 64) {i : Nat} (hi : i < 16) :
    loadWord block i = wordAt block i := by
  have hget : ∀ j (hj : j < 4), block.getD (i * 4 + j) 0 = (block.drop (4 * i)).getD j 0 := by
    intro j hj
    rw [getD_eq_getElem?_getD, getD_eq_getElem?_getD, getElem?_drop, Nat.mul_comm]
  obtain ⟨a, b, c, d, hfour⟩ : ∃ a b c d, (block.drop (4 * i)).take 4 = [a, b, c, d] := by
    have hlength : ((block.drop (4 * i)).take 4).length = 4 := by
      rw [length_take, length_drop]
      omega
    generalize (block.drop (4 * i)).take 4 = four at hlength
    match four, hlength with
    | [a, b, c, d], _ => exact ⟨a, b, c, d, rfl⟩
  have hdrop : block.drop (4 * i) = [a, b, c, d] ++ (block.drop (4 * i)).drop 4 := by
    rw [← hfour, take_append_drop]
  have hload : loadWord block i = (a.toUInt32 <<< 24) ||| (b.toUInt32 <<< 16) |||
      (c.toUInt32 <<< 8) ||| d.toUInt32 := by
    have h0 := hget 0 (by omega)
    rw [Nat.add_zero] at h0
    rw [loadWord, h0, hget 1 (by omega), hget 2 (by omega), hget 3 (by omega), hdrop]
    rfl
  rw [hload, or_shifted, wordAt, hfour]

theorem expandWords_schedule {block : Bytes} (hblock : block.length = 64) (n : Nat) :
    ((List.range' 16 n).foldl expandWords ((List.range 16).map (loadWord block))) =
      (List.range (16 + n)).map (schedule block) := by
  induction n with
  | zero =>
    refine map_congr_left fun t ht => ?_
    have ht : t < 16 := mem_range.mp ht
    rw [loadWord_eq hblock ht, schedule_first ht]
  | succ n ih =>
    have hget : ∀ t < 16 + n, ((List.range (16 + n)).map (schedule block)).getD t 0 =
        schedule block t := by
      intro t ht
      simp [getD_eq_getElem?_getD, ht]
    rw [range'_concat, foldl_append, ih, foldl_cons, foldl_nil, Nat.one_mul,
      expandWords, hget _ (by omega), hget _ (by omega), hget _ (by omega), hget _ (by omega),
      rotl32_eq, ← schedule_next (by omega), ← Nat.add_assoc, range_succ, map_append]
    rfl

theorem sha1Round_eq {block : Bytes} (hblock : block.length = 64) (s : Hash) {i : Nat}
    (hi : i < 80) : sha1Round (sha1Words block) s i = Fips180.round (schedule block) s i := by
  have hword : (sha1Words block).getD i 0 = schedule block i := by
    rw [sha1Words, expandWords_schedule hblock]
    simp [getD_eq_getElem?_getD, hi]
  rw [sha1Round, Fips180.round, hword, f, k]
  split_ifs
  · rw [← choose_eq]
    rfl
  · rfl
  · rw [← majority_eq]
    rfl
  · rfl

theorem sha1Block_eq {block : Bytes} (hblock : block.length = 64) (state : Hash) :
    sha1Block state block = compress state block := by
  have hrounds : (List.range 80).foldl (sha1Round (sha1Words block)) state =
      (List.range 80).foldl (Fips180.round (schedule block)) state :=
    foldl_ext _ _ state fun s i hi => sha1Round_eq hblock s (mem_range.mp hi)
  rw [sha1Block, compress, hrounds]
  rfl

theorem blockLoop_eq {more : Nat → Bool} {data : Bytes} {n : Nat}
    (hmore : ∀ j, more (64 * j) = decide (j < n)) (hdata : 64 * n ≤ data.length) (left : Nat) {j : Nat}
    (hj : j ≤ n) (hleft : n ≤ j + left) (state : Hash) :
    blockLoop more data left (64 * j) state =
      (64 * n, (blocks (n - j) (data.drop (64 * j))).foldl compress state) := by
  induction left generalizing j state with
  | zero =>
    obtain rfl : j = n := by omega
    rw [Nat.sub_self]
    rfl
  | succ left ih =>
    rw [blockLoop, hmore]
    split_ifs with h
    · have hj' : j < n := of_decide_eq_true h
      obtain ⟨m, hm⟩ : ∃ m, n - j = m + 1 := ⟨n - j - 1, by omega⟩
      have hblock : ((data.drop (64 * j)).take 64).length = 64 := by
        rw [length_take, length_drop]
        omega
      have hnext : 64 * j + 64 = 64 * (j + 1) := by omega
      rw [hnext, ih (by omega) (by omega), sha1Block_eq hblock, hm, blocks, foldl_cons,
        drop_drop, hnext, show n - (j + 1) = m by omega]
    · have hj' : ¬j < n := by simpa using h
      obtain rfl : j = n := by omega
      rw [Nat.sub_self]
      rfl

theorem foldl_set_eq (g : Nat → UInt8) (front back : Bytes) {n : Nat} (hn : n ≤ back.length) :
    (List.range n).foldl (fun pad j => pad.set (front.length + j) (g j)) (front ++ back) =
      front ++ (List.range n).map g ++ back.drop n := by
  induction n with
  | zero => simp
  | succ n ih =>
    have hlast : back.drop n = back[n] :: back.drop (n + 1) := drop_eq_getElem_cons hn
    have hplace : front.length + n - (front ++ (List.range n).map g).length = 0 := by simp
    rw [range_succ, foldl_append, ih (by omega), foldl_cons, foldl_nil, hlast,
      set_append_right _ _ (by simp), hplace, set_cons_zero, map_append]
    simp only [append_assoc, map_cons, map_nil, singleton_append]

theorem byte_of_cut (x : Nat) {s : Nat} (hs : s ≤ 56) :
    x % 2 ^ 64 / 2 ^ s % 2 ^ 8 = x / 2 ^ s % 2 ^ 8 := by
  have hsplit : 2 ^ 64 = 2 ^ s * 2 ^ (64 - s) := by
    rw [← Nat.pow_add]
    congr 1
    omega
  rw [hsplit, Nat.mod_mul_right_div_self, Nat.mod_mod_of_dvd _ (Nat.pow_dvd_pow 2 (by omega))]

theorem lengthByte (len : Nat) {j : Nat} (hj : j < 8) :
    ((len.toUInt64 * 8) >>> (56 - 8 * j).toUInt64).toUInt8 =
      UInt8.ofNat (8 * len / 256 ^ (7 - j)) := by
  have hbits : (len.toUInt64 * 8).toNat = 8 * len % 2 ^ 64 := by
    rw [UInt64.toNat_mul, Nat.toUInt64, UInt64.toNat_ofNat']
    change len % 2 ^ 64 * 8 % 2 ^ 64 = _
    omega
  have hshift : (56 - 8 * j).toUInt64.toNat % 64 = 56 - 8 * j := by
    rw [Nat.toUInt64, UInt64.toNat_ofNat']
    omega
  have hplace : 256 ^ (7 - j) = 2 ^ (56 - 8 * j) := by
    rw [show 256 = 2 ^ 8 from rfl, ← Nat.pow_mul]
    congr 1
    omega
  apply UInt8.toNat_inj.mp
  rw [UInt64.toNat_toUInt8, UInt64.toNat_shiftRight, hbits, hshift, UInt8.toNat_ofNat',
    Nat.shiftRight_eq_div_pow, hplace]
  exact byte_of_cut (8 * len) (by omega)

theorem sha1Pad_eq {rest : Bytes} {len : Nat} (h : rest.length = len % 64) :
    sha1Pad rest len = rest ++ [0x80] ++ List.replicate (zeros len) 0 ++ lengthField len := by
  let pad := rest ++ [0x80]
  let padLen := if pad.length ≤ 56 then 64 else 128
  let front := pad ++ List.replicate (zeros len) 0
  have hpad : pad.length = len % 64 + 1 := by simp [pad, h]
  have hfront : front.length + 8 = padLen := by
    simp only [front, padLen, length_append, length_replicate, hpad, zeros]
    split_ifs <;> omega
  have hzeros : pad ++ List.replicate (padLen - pad.length) 0 = front ++ List.replicate 8 0 := by
    have hsum : padLen - pad.length = zeros len + 8 := by
      rw [← hfront, length_append, length_replicate]
      omega
    rw [hsum, replicate_add, ← append_assoc]
  have hlength : padLen - 8 = front.length := by omega
  have hrun : sha1Pad rest len = putLength (pad ++ List.replicate (padLen - pad.length) 0) padLen
    (len.toUInt64 * 8) := rfl
  rw [hrun, hzeros, putLength, hlength, foldl_set_eq _ front _ (by simp)]
  have hfield : (List.range 8).map (fun j => ((len.toUInt64 * 8) >>> (56 - 8 * j).toUInt64).toUInt8) =
      lengthField len := map_congr_left fun j hj => lengthByte len (mem_range.mp hj)
  rw [hfield]
  simp [front, pad]

theorem putWord_eq (x : UInt32) : putWord x = wordBytes x := by
  have hshift : ∀ n : UInt32, n < 32 → (x >>> n).toUInt8 = UInt8.ofNat (x.toNat / 2 ^ n.toNat) := by
    intro n hn
    apply UInt8.toNat_inj.mp
    have hlt : n.toNat < 32 := hn
    rw [UInt32.toNat_toUInt8, UInt32.toNat_shiftRight, UInt8.toNat_ofNat', Nat.shiftRight_eq_div_pow,
      Nat.mod_eq_of_lt hlt]
  have hlow : x.toUInt8 = UInt8.ofNat x.toNat := by
    apply UInt8.toNat_inj.mp
    rw [UInt32.toNat_toUInt8, UInt8.toNat_ofNat']
  rw [putWord, wordBytes, hshift 24 (by decide), hshift 16 (by decide), hshift 8 (by decide), hlow]
  rfl

theorem length_lengthField (n : Nat) : (lengthField n).length = 8 := by simp [lengthField]

theorem sha1_eq_standard (data : Bytes) : sha1 data = Fips180.sha1 data := by
  let n := data.length / 64
  let pad := sha1Pad (data.drop (64 * n)) data.length
  have hrest : (data.drop (64 * n)).length = data.length % 64 := by
    rw [length_drop]
    omega
  have hpad : pad = data.drop (64 * n) ++ [0x80] ++ List.replicate (zeros data.length) 0 ++
      lengthField data.length := sha1Pad_eq hrest
  have hpadded : padded data = data.take (64 * n) ++ pad := by
    rw [hpad, padded]
    simp only [← append_assoc, take_append_drop]
  obtain ⟨q, hq⟩ : ∃ q, pad.length = 64 * q := by
    have hleast := (zeros_isLeast data.length).1
    refine ⟨pad.length / 64, ?_⟩
    rw [hpad]
    simp only [length_append, length_replicate, length_singleton, hrest,
      length_lengthField]
    omega
  have htake : (data.take (64 * n)).length = 64 * n := by
    rw [length_take]
    omega
  have hcount : (padded data).length / 64 = n + q := by
    rw [hpadded, length_append, htake, hq]
    omega
  have hfirst : blockLoop (fun i => i + 64 ≤ data.length) data data.length 0 initial =
      (64 * n, (blocks n data).foldl compress initial) := by
    refine blockLoop_eq (fun j => ?_) (by omega) data.length (Nat.zero_le n) (by omega) initial
    simp only [decide_eq_decide]
    omega
  have hsecond : ∀ state, blockLoop (fun j => j < pad.length) pad pad.length 0 state =
      (64 * q, (blocks q pad).foldl compress state) := by
    refine blockLoop_eq (fun j => ?_) (by omega) pad.length (Nat.zero_le q) (by omega)
    simp only [decide_eq_decide]
    omega
  have hall : blocks (n + q) (padded data) = blocks n data ++ blocks q pad := by
    rw [hpadded, blocks_append htake, blocks_take (Nat.le_refl _)]
  have hrun : sha1 data = (fun state : Hash => putWord state.a ++ putWord state.b ++ putWord state.c ++
      putWord state.d ++ putWord state.e)
        (blockLoop (fun j => j < pad.length) pad pad.length 0
          ((blocks n data).foldl compress initial)).2 := by
    rw [sha1]
    dsimp only
    rw [show (⟨0x67452301, 0xEFCDAB89, 0x98BADCFE, 0x10325476, 0xC3D2E1F0⟩ : Hash) = initial from rfl,
      hfirst]
  rw [hrun, hsecond, Fips180.sha1, hcount, hall, foldl_append]
  simp only [putWord_eq]

theorem number_lengthField {n : Nat} (h : n < 2 ^ 61) : number (lengthField n) = 8 * n := by
  simp only [number, lengthField, List.range, List.range.loop, map_cons, map_nil,
    foldl_cons, foldl_nil, UInt8.toNat_ofNat']
  omega

/-- The program computes the digest of the standard. Its message is padded to whole blocks, and
the length field has the bit length for every message that is short enough. -/
theorem sha1_is_standard_digest (m : Bytes) (h : m.length < 2 ^ 61) :
    sha1 m = Fips180.sha1 m ∧ padded m = m ++ [0x80] ++ List.replicate (zeros m.length) 0 ++
      lengthField m.length ∧ 64 ∣ (padded m).length ∧ number (lengthField m.length) = 8 * m.length := by
  refine ⟨sha1_eq_standard m, rfl, ?_, number_lengthField h⟩
  have hleast := (zeros_isLeast m.length).1
  simp only [padded, length_append, length_replicate, length_singleton,
    length_lengthField]
  omega

theorem sha1_is_standard_digest_abc :
    Fips180.sha1 (ascii "abc") = [0xa9, 0x99, 0x3e, 0x36, 0x47, 0x06, 0x81, 0x6a, 0xba, 0x3e, 0x25,
      0x71, 0x78, 0x50, 0xc2, 0x6c, 0x9c, 0xd0, 0xd8, 0x9d] := by
  rw [← (sha1_is_standard_digest (ascii "abc") (by decide)).1]
  decide +kernel

end Smolmux.Sha1
