import Mathlib.Data.List.Basic
import Mathlib.Tactic.Common
import Smolmux.Bytes

/-! The secure hash algorithm SHA-1 as the standard FIPS 180 gives it, for messages of whole
bytes. -/

namespace Smolmux.Fips180
open List

abbrev Word := UInt32

def number (bytes : Bytes) : Nat := bytes.foldl (fun n byte => 256 * n + byte.toNat) 0

def rotl (n : Word) (x : Word) : Word := (x <<< n) ||| (x >>> (32 - n))

def ch (x y z : Word) : Word := (x &&& y) ^^^ (~~~x &&& z)

def parity (x y z : Word) : Word := x ^^^ y ^^^ z

def maj (x y z : Word) : Word := (x &&& y) ^^^ (x &&& z) ^^^ (y &&& z)

/-- The function and the constant of round `t`. -/
def f (t : Nat) : Word → Word → Word → Word :=
  if t < 20 then ch else if t < 40 then parity else if t < 60 then maj else parity

def k (t : Nat) : Word :=
  if t < 20 then 0x5a827999 else if t < 40 then 0x6ed9eba1
  else if t < 60 then 0x8f1bbcdc else 0xca62c1d6

/-- Zero bytes between the mark and the length, for a message of `n` bytes. -/
def zeros (n : Nat) : Nat := (119 - n % 64) % 64

theorem zeros_isLeast (n : Nat) :
    (n + 1 + zeros n) % 64 = 56 ∧ ∀ z, (n + 1 + z) % 64 = 56 → zeros n ≤ z := by
  unfold zeros
  exact ⟨by omega, fun z hz => by omega⟩

def lengthField (n : Nat) : Bytes :=
  (List.range 8).map fun i => UInt8.ofNat (8 * n / 256 ^ (7 - i))

def padded (m : Bytes) : Bytes :=
  m ++ [0x80] ++ List.replicate (zeros m.length) 0 ++ lengthField m.length

def blocks : (n : Nat) → Bytes → List Bytes
  | 0, _ => []
  | n + 1, m => m.take 64 :: blocks n (m.drop 64)

def wordAt (block : Bytes) (t : Nat) : Word := UInt32.ofNat (number ((block.drop (4 * t)).take 4))

def schedule (block : Bytes) (t : Nat) : Word :=
  if t < 16 then wordAt block t
  else rotl 1 (schedule block (t - 3) ^^^ schedule block (t - 8) ^^^ schedule block (t - 14) ^^^
    schedule block (t - 16))

structure Hash where
  a : Word
  b : Word
  c : Word
  d : Word
  e : Word
  deriving DecidableEq

def initial : Hash := ⟨0x67452301, 0xefcdab89, 0x98badcfe, 0x10325476, 0xc3d2e1f0⟩

def round (w : Nat → Word) (h : Hash) (t : Nat) : Hash :=
  ⟨rotl 5 h.a + f t h.b h.c h.d + h.e + k t + w t, h.a, rotl 30 h.b, h.c, h.d⟩

def Hash.plus (h r : Hash) : Hash := ⟨h.a + r.a, h.b + r.b, h.c + r.c, h.d + r.d, h.e + r.e⟩

def compress (h : Hash) (block : Bytes) : Hash :=
  h.plus ((List.range 80).foldl (round (schedule block)) h)

def wordBytes (w : Word) : Bytes :=
  [UInt8.ofNat (w.toNat / 2 ^ 24), UInt8.ofNat (w.toNat / 2 ^ 16), UInt8.ofNat (w.toNat / 2 ^ 8),
    UInt8.ofNat w.toNat]

def sha1 (m : Bytes) : Bytes :=
  let h := (blocks ((padded m).length / 64) (padded m)).foldl compress initial
  wordBytes h.a ++ wordBytes h.b ++ wordBytes h.c ++ wordBytes h.d ++ wordBytes h.e

theorem schedule_first {block : Bytes} {t : Nat} (h : t < 16) :
    schedule block t = wordAt block t := by
  rw [schedule, if_pos h]

theorem schedule_next {block : Bytes} {t : Nat} (h : 16 ≤ t) :
    schedule block t = rotl 1 (schedule block (t - 3) ^^^ schedule block (t - 8) ^^^
      schedule block (t - 14) ^^^ schedule block (t - 16)) := by
  rw [schedule, if_neg (Nat.not_lt.mpr h)]

theorem blocks_append {n : Nat} {front : Bytes} (h : front.length = 64 * n) (k : Nat) (m : Bytes) :
    blocks (n + k) (front ++ m) = blocks n front ++ blocks k m := by
  induction n generalizing front with
  | zero =>
    obtain rfl := eq_nil_of_length_eq_zero h
    rw [Nat.zero_add]
    rfl
  | succ n ih =>
    have hlong : 64 ≤ front.length := by omega
    have hrest : (front.drop 64).length = 64 * n := by
      rw [length_drop]
      omega
    rw [Nat.add_right_comm, blocks, blocks, take_append_of_le_length hlong,
      drop_append_of_le_length hlong, ih hrest, cons_append]

theorem blocks_take {n l : Nat} (h : 64 * n ≤ l) (m : Bytes) : blocks n (m.take l) = blocks n m := by
  induction n generalizing m l with
  | zero => rfl
  | succ n ih =>
    rw [blocks, blocks, take_take, Nat.min_eq_left (by omega), drop_take,
      ih (by omega)]

end Smolmux.Fips180
