import Smolmux.Base64

/-! The loops of `util/base64.c` over their buffers. Every read of the input and of the
alphabet and every write of the output is checked: an access outside a buffer has no
result. Sizes that are computed are `size_t`; the indices stay below the length of an
object and are naturals. The loops refine the coder of `Base64`, which the protocol uses. -/

namespace Smolmux
open List

structure Buffer (α : Type) where
  cells : List (Option α)

namespace Buffer

variable {α : Type}

def alloc (size : Nat) : Buffer α := ⟨List.replicate size none⟩

def write (b : Buffer α) (i : Nat) (x : α) : Option (Buffer α) :=
  if i < b.cells.length then some ⟨b.cells.set i (some x)⟩ else none

def filled (xs : List α) (size : Nat) : Buffer α :=
  ⟨xs.map some ++ List.replicate (size - xs.length) none⟩

theorem alloc_eq (size : Nat) : (alloc size : Buffer α) = filled [] size := rfl

theorem filled_full (xs : List α) : (filled xs xs.length).cells = xs.map some := by
  rw [filled, Nat.sub_self, replicate_zero, append_nil]

theorem take_filled (xs : List α) (size : Nat) :
    (filled xs size).cells.take xs.length = xs.map some :=
  take_left' (length_map some)

theorem write_filled {xs : List α} {size : Nat} (h : xs.length < size) (x : α) :
    (filled xs size).write xs.length x = some (filled (xs ++ [x]) size) := by
  obtain ⟨k, rfl⟩ : ∃ k, size = xs.length + (k + 1) := ⟨size - xs.length - 1, by omega⟩
  have hroom : xs.length < (filled xs (xs.length + (k + 1))).cells.length := by
    simp [filled]
  have hrest : xs.length + (k + 1) - (xs ++ [x]).length = k := by
    rw [length_append, length_singleton]
    omega
  have hset : (xs.map some ++ List.replicate (k + 1) none).set xs.length (some x) =
      xs.map some ++ [some x] ++ List.replicate k none := by
    rw [set_append_right _ _ (Nat.le_of_eq (length_map some)), length_map,
      Nat.sub_self, append_assoc]
    rfl
  rw [write, if_pos hroom, filled, filled, hrest, Nat.add_sub_cancel_left, map_append]
  exact congrArg (fun cells => some (Buffer.mk cells)) hset

end Buffer

end Smolmux

namespace Smolmux.Base64
open List

def sizeT (n : Nat) : Nat := n % 2 ^ 64

def b64Table (n : Nat) : Option UInt8 := table[n % 64]?

def encodeLoop (data : Bytes) (i j : Nat) (out : Buffer UInt8) :
    Option (Nat × Nat × Buffer UInt8) :=
  if i + 2 < data.length then do
    let v := (← data[i]?).toNat * 2 ^ 16 + (← data[i + 1]?).toNat * 2 ^ 8 + (← data[i + 2]?).toNat
    let out ← out.write j (← b64Table (v / 2 ^ 18))
    let out ← out.write (j + 1) (← b64Table (v / 2 ^ 12))
    let out ← out.write (j + 2) (← b64Table (v / 2 ^ 6))
    let out ← out.write (j + 3) (← b64Table v)
    encodeLoop data (i + 3) (j + 4) out
  else some (i, j, out)
termination_by data.length - i

def encodeTail (data : Bytes) (i j : Nat) (out : Buffer UInt8) : Option (Nat × Buffer UInt8) :=
  if i < data.length then do
    let high := (← data[i]?).toNat * 2 ^ 16
    let v ← if i + 1 < data.length then do some (high + (← data[i + 1]?).toNat * 2 ^ 8)
      else some high
    let out ← out.write j (← b64Table (v / 2 ^ 18))
    let out ← out.write (j + 1) (← b64Table (v / 2 ^ 12))
    let third ← if i + 1 < data.length then b64Table (v / 2 ^ 6) else some padChar
    let out ← out.write (j + 2) third
    let out ← out.write (j + 3) padChar
    some (j + 4, out)
  else some (j, out)

def smBase64Encode (data : Bytes) : Option (Buffer UInt8) := do
  let outLen := sizeT (4 * (sizeT (data.length + 2) / 3))
  let (i, j, out) ← encodeLoop data 0 0 (Buffer.alloc (sizeT (outLen + 1)))
  let (j, out) ← encodeTail data i j out
  out.write j 0

def validFrom (b64 : Bytes) (i : Nat) : Option Bool :=
  if i < b64.length then do
    let c ← b64[i]?
    if !isB64Char c then some false
    else if c = padChar ∧ i < b64.length - 2 then some false
    else validFrom b64 (i + 1)
  else some true
termination_by b64.length - i

def putBelow (limit j : Nat) (out : Buffer UInt8) (x : UInt8) : Option (Nat × Buffer UInt8) :=
  if j < limit then do some (j + 1, ← out.write j x) else some (j, out)

def decodeLoop (b64 : Bytes) (limit i j : Nat) (out : Buffer UInt8) : Option (Buffer UInt8) :=
  if i + 3 < b64.length then do
    let v := decodeTable (← b64[i]?) * 2 ^ 18 + decodeTable (← b64[i + 1]?) * 2 ^ 12 +
      decodeTable (← b64[i + 2]?) * 2 ^ 6 + decodeTable (← b64[i + 3]?)
    let (j, out) ← putBelow limit j out (UInt8.ofNat (v / 2 ^ 16))
    let (j, out) ← putBelow limit j out (UInt8.ofNat (v / 2 ^ 8))
    let (j, out) ← putBelow limit j out (UInt8.ofNat v)
    decodeLoop b64 limit (i + 4) j out
  else some out
termination_by b64.length - i

/-- The part of `sm_base64_decode` behind its checks: the length that the padding leaves,
and the loop. -/
def decodeValid (b64 : Bytes) : Option (Buffer UInt8 × Nat) := do
  let last ← b64[b64.length - 1]?
  let prev ← b64[b64.length - 2]?
  let pad := (if last = padChar then 1 else 0) + (if prev = padChar then 1 else 0)
  let decodedLen := sizeT (b64.length / 4 * 3 - pad)
  let out ← decodeLoop b64 decodedLen 0 0 (Buffer.alloc (sizeT (decodedLen + 1)))
  some (out, decodedLen)

/-- The buffer and the length that `sm_base64_decode` returns, or its null pointer. -/
def smBase64Decode (b64 : Bytes) : Option (Option (Buffer UInt8 × Nat)) :=
  if b64.length = 0 then do some (some (← (Buffer.alloc 1).write 0 0, 0))
  else if b64.length % 4 ≠ 0 then some none
  else do if ← validFrom b64 0 then some (some (← decodeValid b64)) else some none

variable {code : Bytes} {size : Nat} {data rest : Bytes} {i : Nat} {a : UInt8}

theorem b64Table_eq (n : Nat) : b64Table n = some (sextetChar n) := by
  have hin : n % 64 < table.length := by
    rw [table_ranges]
    exact Nat.mod_lt n (by decide)
  rw [b64Table, sextetChar, getElem?_eq_getElem hin, getD_eq_getElem _ _ hin]

theorem write_group (h : code.length + 4 ≤ size) (a b c d : UInt8) :
    (Buffer.filled code size).write code.length a = some (Buffer.filled (code ++ [a]) size) ∧
      (Buffer.filled (code ++ [a]) size).write (code.length + 1) b =
        some (Buffer.filled (code ++ [a, b]) size) ∧
      (Buffer.filled (code ++ [a, b]) size).write (code.length + 2) c =
        some (Buffer.filled (code ++ [a, b, c]) size) ∧
      (Buffer.filled (code ++ [a, b, c]) size).write (code.length + 3) d =
        some (Buffer.filled (code ++ [a, b, c, d]) size) := by
  have hwrite : ∀ part : Bytes, part.length < 4 → ∀ x,
      (Buffer.filled (code ++ part) size).write (code.length + part.length) x =
        some (Buffer.filled (code ++ (part ++ [x])) size) := by
    intro part hlt x
    rw [← length_append, Buffer.write_filled (by rw [length_append]; omega),
      append_assoc]
  refine ⟨?_, hwrite [a] (by simp) b, hwrite [a, b] (by simp) c, hwrite [a, b, c] (by simp) d⟩
  exact Buffer.write_filled (by omega) a

theorem getElem?_of_drop (h : data.drop i = rest) (k : Nat) :
    data[i + k]? = rest[k]? := by
  rw [← h, getElem?_drop]

theorem length_of_drop (h : data.drop i = rest) (hpos : 0 < rest.length) : data.length = i + rest.length := by
  have hlength : data.length - i = rest.length := by rw [← h, length_drop]
  omega

theorem encodeLoop_step {b c : UInt8} (h : data.drop i = a :: b :: c :: rest)
    (hroom : code.length + 4 ≤ size) :
    encodeLoop data i code.length (Buffer.filled code size) =
      encodeLoop data (i + 3) (code.length + 4)
        (Buffer.filled (code ++ encodeGroup (a.toNat * 2 ^ 16 + b.toNat * 2 ^ 8 + c.toNat))
          size) := by
  have hmore : i + 2 < data.length := by
    rw [length_of_drop h (by simp), length_cons, length_cons, length_cons]
    omega
  have ha : data[i]? = some a := getElem?_of_drop h 0
  have hb : data[i + 1]? = some b := getElem?_of_drop h 1
  have hc : data[i + 2]? = some c := getElem?_of_drop h 2
  rw [encodeLoop, if_pos hmore]
  simp only [ha, hb, hc, b64Table_eq, Option.bind_eq_bind, Option.bind_some]
  generalize a.toNat * 2 ^ 16 + b.toNat * 2 ^ 8 + c.toNat = v
  obtain ⟨h0, h1, h2, h3⟩ := write_group hroom (sextetChar (v / 2 ^ 18)) (sextetChar (v / 2 ^ 12))
    (sextetChar (v / 2 ^ 6)) (sextetChar v)
  simp only [h0, h1, h2, h3, Option.bind_some, encodeGroup]

theorem encodeLoop_stop (h : data.length ≤ i + 2) (j : Nat) (out : Buffer UInt8) : encodeLoop data i j out = some (i, j, out) := by
  rw [encodeLoop, if_neg (Nat.not_lt.mpr h)]

theorem encodeTail_two {b : UInt8} (h : data.drop i = [a, b]) (hroom : code.length + 4 ≤ size) :
    encodeTail data i code.length (Buffer.filled code size) =
      some (code.length + 4, Buffer.filled (code ++ base64Encode [a, b]) size) := by
  have hlength : data.length = i + 2 := length_of_drop h (by simp)
  have ha : data[i]? = some a := getElem?_of_drop h 0
  have hb : data[i + 1]? = some b := getElem?_of_drop h 1
  have htwo : i + 1 < data.length := by omega
  rw [encodeTail, if_pos (by omega)]
  simp only [ha, hb, htwo, if_true, b64Table_eq, Option.bind_eq_bind, Option.bind_some]
  generalize hv : a.toNat * 2 ^ 16 + b.toNat * 2 ^ 8 = v
  obtain ⟨h0, h1, h2, h3⟩ := write_group hroom (sextetChar (v / 2 ^ 18)) (sextetChar (v / 2 ^ 12))
    (sextetChar (v / 2 ^ 6)) padChar
  simp only [h0, h1, h2, h3, Option.bind_some, base64Encode, hv]
  rfl

theorem encodeTail_one (h : data.drop i = [a]) (hroom : code.length + 4 ≤ size) :
    encodeTail data i code.length (Buffer.filled code size) =
      some (code.length + 4, Buffer.filled (code ++ base64Encode [a]) size) := by
  have hlength : data.length = i + 1 := length_of_drop h (by simp)
  have ha : data[i]? = some a := getElem?_of_drop h 0
  have hone : ¬ i + 1 < data.length := by omega
  rw [encodeTail, if_pos (by omega)]
  simp only [ha, hone, if_false, b64Table_eq, Option.bind_eq_bind, Option.bind_some]
  generalize hv : a.toNat * 2 ^ 16 = v
  obtain ⟨h0, h1, h2, h3⟩ := write_group hroom (sextetChar (v / 2 ^ 18)) (sextetChar (v / 2 ^ 12))
    padChar padChar
  simp only [h0, h1, h2, h3, Option.bind_some, base64Encode, hv]
  rfl

theorem encodeFrom_eq (h : data.drop i = rest)
    (hroom : code.length + (base64Encode rest).length < size) :
    ((encodeLoop data i code.length (Buffer.filled code size)).bind fun r =>
      (encodeTail data r.1 r.2.1 r.2.2).bind fun t => t.2.write t.1 0) =
      some (Buffer.filled (code ++ base64Encode rest ++ [0]) size) := by
  induction rest using base64Encode.induct generalizing i code with
  | case1 a b c rest ih =>
    have hrest : data.drop (i + 3) = rest := by
      rw [← drop_drop, h]
      rfl
    generalize hgroup : encodeGroup (a.toNat * 2 ^ 16 + b.toNat * 2 ^ 8 + c.toNat) = group
    have hfour : group.length = 4 := by rw [← hgroup, encodeGroup]; rfl
    rw [base64Encode, hgroup, length_append, hfour] at hroom
    have hlength : (code ++ group).length = code.length + 4 := by rw [length_append, hfour]
    have hnext : (code ++ group).length + (base64Encode rest).length < size := by omega
    rw [encodeLoop_step h (by omega), hgroup, ← hlength, ih hrest hnext, base64Encode, hgroup,
      append_assoc code]
  | case2 a b =>
    have hlength : (base64Encode [a, b]).length = 4 := rfl
    have hstop : data.length ≤ i + 2 := (length_of_drop h (by simp)).le
    rw [encodeLoop_stop hstop, Option.bind_some, encodeTail_two h (by omega), Option.bind_some,
      ← hlength, ← length_append, Buffer.write_filled (by rw [length_append]; omega)]
  | case3 a =>
    have hlength : (base64Encode [a]).length = 4 := rfl
    have hstop : data.length ≤ i + 2 := by rw [length_of_drop h (by simp)]; simp
    rw [encodeLoop_stop hstop, Option.bind_some, encodeTail_one h (by omega), Option.bind_some,
      ← hlength, ← length_append, Buffer.write_filled (by rw [length_append]; omega)]
  | case4 =>
    have hend : data.length ≤ i := drop_eq_nil_iff.mp h
    rw [encodeLoop_stop (by omega), Option.bind_some, encodeTail, if_neg (by omega),
      Option.bind_some, base64Encode, append_nil, Buffer.write_filled (by omega)]

theorem sizeT_of_lt {n : Nat} (h : n < 2 ^ 64) : sizeT n = n := Nat.mod_eq_of_lt h

theorem smBase64Encode_eq (h : data.length < 2 ^ 63) :
    ∃ out, smBase64Encode data = some out ∧ out.cells = (base64Encode data ++ [0]).map some := by
  have hlength := base64Encode_length data
  have hsize : sizeT (sizeT (4 * (sizeT (data.length + 2) / 3)) + 1) =
      (base64Encode data ++ [0]).length := by
    have hcount : sizeT (data.length + 2) = data.length + 2 := sizeT_of_lt (by omega)
    have hcode : sizeT (4 * ((data.length + 2) / 3)) = 4 * ((data.length + 2) / 3) :=
      sizeT_of_lt (by omega)
    rw [hcount, hcode, sizeT_of_lt (by omega), length_append, hlength, length_singleton]
  refine ⟨Buffer.filled (base64Encode data ++ [0]) (base64Encode data ++ [0]).length, ?_,
    Buffer.filled_full _⟩
  rw [smBase64Encode, hsize, Buffer.alloc_eq]
  have hwhole : data.drop 0 = data := drop_zero
  have hroom : ([] : Bytes).length + (base64Encode data).length <
      (base64Encode data ++ [0]).length := by simp
  exact encodeFrom_eq hwhole hroom

variable {b64 : Bytes}

theorem getElem?_eq_getD (h : i < b64.length) :
    b64[i]? = some (b64.getD i 0) := by
  rw [getElem?_eq_getElem h, getD_eq_getElem _ _ h]

def charOk (b64 : Bytes) (i : Nat) : Bool :=
  isB64Char (b64.getD i 0) && !(b64.getD i 0 == padChar && i < b64.length - 2)

theorem validFrom_step (h : i < b64.length) :
    validFrom b64 i = if charOk b64 i then validFrom b64 (i + 1) else some false := by
  obtain ⟨c, hc⟩ : ∃ c, b64.getD i 0 = c := ⟨_, rfl⟩
  rw [validFrom, if_pos h, getElem?_eq_getD h, charOk, hc, Option.bind_eq_bind, Option.bind_some]
  by_cases hchar : isB64Char c
  · by_cases hplace : c = padChar ∧ i < b64.length - 2
    · simp [hplace]
    · have hfine : (c == padChar && decide (i < b64.length - 2)) = false := by
        simpa using hplace
      simp [hchar, hplace, hfine]
  · simp [hchar]

theorem validFrom_eq (b64 : Bytes) {n : Nat} (h : i + n = b64.length) :
    validFrom b64 i = some ((List.range' i n).all (charOk b64)) := by
  induction n generalizing i with
  | zero => rw [validFrom, if_neg (by omega), range'_zero, all_nil]
  | succ n ih =>
    rw [validFrom_step (by omega), ih (by omega), range'_succ, all_cons]
    cases charOk b64 i <;> rfl

theorem putBelow_eq {done : Bytes} {limit : Nat} (h : done.length ≤ limit) (x : UInt8) :
    putBelow limit done.length (Buffer.filled done (limit + 1)) x =
      some (((done ++ [x]).take limit).length, Buffer.filled ((done ++ [x]).take limit)
        (limit + 1)) := by
  rw [putBelow]
  split_ifs with hlt
  · have hall : (done ++ [x]).take limit = done ++ [x] :=
      take_of_length_le (by rw [length_append, length_singleton]; omega)
    rw [Buffer.write_filled (by omega), Option.bind_eq_bind, Option.bind_some, hall,
      length_append, length_singleton]
  · have hfull : done.length = limit := by omega
    rw [← hfull, take_left]

theorem length_lt_of_groupless
    (h : ∀ (a b c d : UInt8) (tail : Bytes), rest = a :: b :: c :: d :: tail → False) :
    rest.length < 4 := by
  rcases rest with _ | ⟨a, _ | ⟨b, _ | ⟨c, _ | ⟨d, tail⟩⟩⟩⟩
  · exact Nat.zero_lt_succ _
  · exact Nat.le_add_left 2 2
  · exact Nat.le_add_left 3 1
  · exact Nat.le_refl 4
  · exact (h a b c d tail rfl).elim

/-- From index `i` on, behind the bytes `done`, the loop writes what the rest decodes to, as
far as the length that was computed. -/
theorem decodeLoop_eq {done : Bytes} {limit : Nat} (h : b64.drop i = rest)
    (hdone : done.length ≤ limit) :
    decodeLoop b64 limit i done.length (Buffer.filled done (limit + 1)) =
      some (Buffer.filled ((done ++ decodeGroups rest).take limit) (limit + 1)) := by
  have hcut : ∀ xs ys : Bytes, (xs.take limit ++ ys).take limit = (xs ++ ys).take limit := by
    intro xs ys
    rcases Nat.le_total xs.length limit with hle | hge
    · rw [take_of_length_le hle]
    · rw [take_append_of_le_length hge, take_append_of_le_length (by simp [hge]),
        take_take, Nat.min_self]
  have hbound : ∀ xs : Bytes, (xs.take limit).length ≤ limit := fun xs => length_take_le _ _
  induction rest using decodeGroups.induct generalizing i done with
  | case1 a b c d rest ih =>
    have hrest : b64.drop (i + 4) = rest := by
      rw [← drop_drop, h]
      rfl
    have hmore : i + 3 < b64.length := by
      rw [length_of_drop h (by simp), length_cons, length_cons, length_cons,
        length_cons]
      omega
    have ha : b64[i]? = some a := getElem?_of_drop h 0
    have hb : b64[i + 1]? = some b := getElem?_of_drop h 1
    have hc : b64[i + 2]? = some c := getElem?_of_drop h 2
    have hd : b64[i + 3]? = some d := getElem?_of_drop h 3
    rw [decodeLoop, if_pos hmore]
    simp only [ha, hb, hc, hd, Option.bind_eq_bind, Option.bind_some, putBelow_eq hdone,
      putBelow_eq (hbound _), ih hrest (hbound _)]
    simp only [hcut, append_assoc, decodeGroups, decodeGroup, cons_append,
      nil_append]
  | case2 rest hshort =>
    have hend : ¬ i + 3 < b64.length := by
      have hlength := congrArg List.length h
      rw [length_drop] at hlength
      have hless := length_lt_of_groupless hshort
      omega
    have hnone : decodeGroups rest = [] := by
      rw [decodeGroups]
      exact hshort
    rw [decodeLoop, if_neg hend, hnone, append_nil, take_of_length_le hdone]

theorem length_decodeGroups (h : b64.length % 4 = 0) :
    (decodeGroups b64).length = b64.length / 4 * 3 := by
  induction b64 using decodeGroups.induct with
  | case1 a b c d rest ih =>
    simp only [decodeGroups, decodeGroup, length_append, length_cons, length_nil]
      at h ⊢
    rw [ih (by omega)]
    omega
  | case2 rest hshort =>
    have hless := length_lt_of_groupless hshort
    obtain rfl : rest = [] := length_eq_zero_iff.mp (by omega)
    rfl

/-- What a decoder's answer over buffers says in terms of byte strings. -/
def Decodes : Option (Buffer UInt8 × Nat) → Option Bytes → Prop
  | none, none => True
  | some (out, len), some bytes => len = bytes.length ∧ out.cells.take len = bytes.map some
  | _, _ => False

theorem decodeValid_eq (hsize : b64.length < 2 ^ 64) (hpos : b64.length ≠ 0)
    (hmod : b64.length % 4 = 0) :
    ∃ r, decodeValid b64 = some r ∧ Decodes (some r) (some ((decodeGroups b64).take
      (b64.length / 4 * 3 - ((if b64.getD (b64.length - 1) 0 = padChar then 1 else 0) +
        (if b64.getD (b64.length - 2) 0 = padChar then 1 else 0))))) := by
  rw [decodeValid, getElem?_eq_getD (by omega), getElem?_eq_getD (by omega)]
  simp only [Option.bind_eq_bind, Option.bind_some]
  generalize (if b64.getD (b64.length - 1) 0 = padChar then 1 else 0) +
    (if b64.getD (b64.length - 2) 0 = padChar then 1 else 0) = pad
  have hgroups := length_decodeGroups hmod
  generalize hlimit : b64.length / 4 * 3 - pad = limit
  have hcut : ((decodeGroups b64).take limit).length = limit := by
    rw [length_take]
    omega
  have hloop : decodeLoop b64 limit 0 0 (Buffer.alloc (limit + 1)) =
      some (Buffer.filled ((decodeGroups b64).take limit) (limit + 1)) := by
    have hwhole : b64.drop 0 = b64 := drop_zero
    have hnone : ([] : Bytes).length ≤ limit := Nat.zero_le limit
    exact decodeLoop_eq hwhole hnone
  have htake := Buffer.take_filled ((decodeGroups b64).take limit) (limit + 1)
  rw [hcut] at htake
  rw [sizeT_of_lt (by omega), sizeT_of_lt (by omega), hloop]
  exact ⟨_, rfl, hcut.symm, htake⟩

theorem smBase64Decode_eq (h : b64.length < 2 ^ 64) :
    ∃ r, smBase64Decode b64 = some r ∧ Decodes r (base64Decode b64) := by
  rw [smBase64Decode, base64Decode]
  by_cases hzero : b64.length = 0
  · rw [if_pos hzero, if_pos hzero]
    exact ⟨_, rfl, rfl, rfl⟩
  by_cases hmod : b64.length % 4 ≠ 0
  · rw [if_neg hzero, if_neg hzero, if_pos hmod, if_pos hmod]
    exact ⟨none, rfl, trivial⟩
  have hvalid : validFrom b64 0 = some ((List.range b64.length).all (charOk b64)) := by
    rw [validFrom_eq b64 (Nat.zero_add _), ← range_eq_range']
  rw [if_neg hzero, if_neg hzero, if_neg hmod, if_neg hmod, hvalid, Option.bind_eq_bind,
    Option.bind_some]
  by_cases hall : (List.range b64.length).all (charOk b64)
  · obtain ⟨r, hr, hdecodes⟩ := decodeValid_eq h hzero (not_ne_iff.mp hmod)
    refine ⟨some r, ?_, ?_⟩
    · rw [if_pos hall, hr]
      rfl
    · rw [if_neg]
      · exact hdecodes
      · exact (congrArg not hall).trans_ne Bool.false_ne_true
  · refine ⟨none, if_neg hall, ?_⟩
    rw [if_pos]
    · trivial
    · exact congrArg not ((Bool.not_eq_true _).mp hall)

structure Object where
  bytes : Bytes
  fits : bytes.length < 2 ^ 63

structure Text where
  bytes : Bytes
  fits : bytes.length < 2 ^ 64

/-- Whatever is encoded decodes to itself, and neither function leaves its buffers: the
encoder for no object, the decoder for no text, legal or not. -/
theorem base64_round_trip :
    (∀ x : Object, ∃ out, smBase64Encode x.bytes = some out ∧
      out.cells = (base64Encode x.bytes ++ [0]).map some ∧
      ∃ decoded, smBase64Decode (base64Encode x.bytes) = some (some (decoded, x.bytes.length)) ∧
        decoded.cells.take x.bytes.length = x.bytes.map some) ∧
    ∀ s : Text, (smBase64Decode s.bytes).isSome = true := by
  refine ⟨fun x => ?_, fun s => ?_⟩
  · obtain ⟨out, hencode, hout⟩ := smBase64Encode_eq x.fits
    have hfits := x.fits
    have hlength := base64Encode_length x.bytes
    have hcode : (base64Encode x.bytes).length < 2 ^ 64 := by omega
    obtain ⟨r, hdecode, hr⟩ := smBase64Decode_eq hcode
    rw [base64Decode_encode] at hr
    match r, hr with
    | some (decoded, len), ⟨hlen, hbytes⟩ =>
      subst hlen
      exact ⟨out, hencode, hout, decoded, hdecode, hbytes⟩
  · obtain ⟨r, hdecode, -⟩ := smBase64Decode_eq s.fits
    rw [hdecode, Option.isSome_some]

end Smolmux.Base64
