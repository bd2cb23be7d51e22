import Smolmux.JsonText

/-! Target profiles of the debugger server (`gdb_profile.c`, and the part of `gdb_mcp.c` that
writes one): a profile is read from JSON over the one that is there, with every text cut to its
field, and printed whole; it is written to the profile directory only. -/

namespace Smolmux.Mcp.GdbProfile
open List

section RoundTrip

/-- JSON as the profile is read from it; the keys of the peripheral map are the profile's own. -/
inductive Value
  | str (s : Bytes)
  | arr (items : List Value)
  | obj (fields : List (Bytes × Value))
  | other

namespace Value

def item (key : String) : Value → Option Value
  | obj fields => (fields.find? fun f => f.1 == ascii key).map Prod.snd
  | _ => none

def string : Value → Option Bytes
  | str s => some s
  | _ => none

def array : Value → Option (List Value)
  | arr items => some items
  | _ => none

def object : Value → Option (List (Bytes × Value))
  | obj fields => some fields
  | _ => none

end Value

/-- The JSON library prints values and reads them back. -/
structure Library (Text : Type) where
  print : Value → Text
  parse : Text → Option Value
  parse_print : ∀ v, parse (print v) = some v

structure Profile where
  name : Bytes
  description : Bytes
  arch : Bytes
  gdbPath : Bytes
  rtos : Bytes
  initCommands : List Bytes
  importantRegisters : List Bytes
  faultRegisters : List (Bytes × Bytes)
  peripherals : List (Bytes × Bytes)
  rtosCommands : List Bytes

def initDefault : Profile where
  name := ascii "generic"
  description := ascii "Generic ARM Cortex-M target"
  arch := ascii "arm"
  gdbPath := ascii "arm-none-eabi-gdb"
  rtos := []
  initCommands := []
  importantRegisters := ["r0", "r1", "r2", "r3", "r12", "sp", "lr", "pc", "xpsr"].map ascii
  faultRegisters := [("CFSR", "0xE000ED28"), ("HFSR", "0xE000ED2C"), ("MMFAR", "0xE000ED34"),
    ("BFAR", "0xE000ED38")].map fun r => (ascii r.1, ascii r.2)
  peripherals := []
  rtosCommands := []

def parseString (root : Value) (key : String) (size : Nat) (old : Bytes) : Bytes :=
  ((root.item key).bind Value.string).elim old (stored size)

def parseStringArray (root : Value) (key : String) (size cap : Nat) (old : List Bytes) :
    List Bytes :=
  ((root.item key).bind Value.array).elim old fun items =>
    ((items.filterMap Value.string).take cap).map (stored size)

def pairOf (v : Value) : Option (Bytes × Bytes) :=
  ((v.item "name").bind Value.string).bind fun name =>
    ((v.item "address").bind Value.string).map fun address => (name, address)

def cutPair (size : Nat) (r : Bytes × Bytes) : Bytes × Bytes := (stored size r.1, stored 24 r.2)

def fromJson (p : Profile) (root : Value) : Profile where
  name := parseString root "name" 64 p.name
  description := parseString root "description" 256 p.description
  arch := parseString root "arch" 16 p.arch
  gdbPath := parseString root "gdb_path" 256 p.gdbPath
  rtos := parseString root "rtos" 32 p.rtos
  initCommands := parseStringArray root "gdb_init_commands" 128 16 p.initCommands
  rtosCommands := parseStringArray root "rtos_commands" 128 16 p.rtosCommands
  importantRegisters := parseStringArray root "important_registers" 16 64 p.importantRegisters
  faultRegisters := ((root.item "fault_registers").bind Value.array).elim p.faultRegisters
    fun items => ((items.filterMap pairOf).take 16).map (cutPair 16)
  peripherals := ((root.item "peripheral_map").bind Value.object).elim p.peripherals
    fun fields => ((fields.filterMap fun f => f.2.string.map (Prod.mk f.1)).take 64).map (cutPair 32)

variable {Text : Type} (lib : Library Text)

def profileFromJson (p : Profile) (text : Text) : Option Profile :=
  (lib.parse text).map (fromJson p)

def toJson (p : Profile) : Value :=
  .obj [(ascii "name", .str p.name), (ascii "description", .str p.description),
    (ascii "arch", .str p.arch), (ascii "gdb_path", .str p.gdbPath), (ascii "rtos", .str p.rtos),
    (ascii "gdb_init_commands", .arr (p.initCommands.map .str)),
    (ascii "important_registers", .arr (p.importantRegisters.map .str)),
    (ascii "fault_registers", .arr (p.faultRegisters.map fun r =>
      .obj [(ascii "name", .str r.1), (ascii "address", .str r.2)])),
    (ascii "peripheral_map", .obj (p.peripherals.map fun r => (r.1, .str r.2))),
    (ascii "rtos_commands", .arr (p.rtosCommands.map .str))]

structure Fit (size cap : Nat) (texts : List Bytes) : Prop where
  count : texts.length ≤ cap
  each : ∀ s ∈ texts, s.length < size

structure FitPairs (size cap : Nat) (pairs : List (Bytes × Bytes)) : Prop where
  count : pairs.length ≤ cap
  each : ∀ r ∈ pairs, r.1.length < size ∧ r.2.length < 24

structure Profile.Valid (p : Profile) : Prop where
  name : p.name.length < 64
  description : p.description.length < 256
  arch : p.arch.length < 16
  gdbPath : p.gdbPath.length < 256
  rtos : p.rtos.length < 32
  initCommands : Fit 128 16 p.initCommands
  importantRegisters : Fit 16 64 p.importantRegisters
  faultRegisters : FitPairs 16 16 p.faultRegisters
  peripherals : FitPairs 32 64 p.peripherals
  rtosCommands : Fit 128 16 p.rtosCommands

theorem valid_initDefault : initDefault.Valid := by
  constructor <;> first | decide | exact ⟨by decide, by decide⟩

theorem length_stored {size : Nat} (h : 0 < size) (s : Bytes) : (stored size s).length < size := by
  rw [stored, length_take]
  omega

section Parsing

variable {root : Value} {key : String} {size cap : Nat}

theorem length_parseString {old : Bytes} (h : old.length < size) :
    (parseString root key size old).length < size := by
  unfold parseString
  cases (root.item key).bind Value.string with
  | none => exact h
  | some s => exact length_stored (Nat.zero_lt_of_lt h) s

theorem fit_parseStringArray {old : List Bytes} (h : Fit size cap old) (hsize : 0 < size) :
    Fit size cap (parseStringArray root key size cap old) := by
  unfold parseStringArray
  cases (root.item key).bind Value.array with
  | none => exact h
  | some items =>
    refine ⟨by rw [Option.elim_some, length_map]; exact length_take_le .., fun s hs => ?_⟩
    obtain ⟨t, -, rfl⟩ := mem_map.mp hs
    exact length_stored hsize t

theorem fitPairs_cut {pairs : List (Bytes × Bytes)} (hsize : 0 < size) :
    FitPairs size cap ((pairs.take cap).map (cutPair size)) := by
  refine ⟨by rw [length_map]; exact length_take_le .., fun r hr => ?_⟩
  obtain ⟨q, -, rfl⟩ := mem_map.mp hr
  exact ⟨length_stored hsize _, length_stored (by decide) _⟩

theorem Profile.Valid.fromJson {p : Profile} (h : p.Valid) (root : Value) :
    (fromJson p root).Valid where
  name := length_parseString h.name
  description := length_parseString h.description
  arch := length_parseString h.arch
  gdbPath := length_parseString h.gdbPath
  rtos := length_parseString h.rtos
  initCommands := fit_parseStringArray h.initCommands (by decide)
  importantRegisters := fit_parseStringArray h.importantRegisters (by decide)
  faultRegisters := by
    unfold GdbProfile.fromJson
    cases (root.item "fault_registers").bind Value.array with
    | none => exact h.faultRegisters
    | some items => exact fitPairs_cut (by decide)
  peripherals := by
    unfold GdbProfile.fromJson
    cases (root.item "peripheral_map").bind Value.object with
    | none => exact h.peripherals
    | some fields => exact fitPairs_cut (by decide)
  rtosCommands := fit_parseStringArray h.rtosCommands (by decide)

theorem parseString_str {s old : Bytes} (hkey : root.item key = some (.str s))
    (h : s.length < size) : parseString root key size old = s := by
  rw [parseString, hkey]
  exact stored_fits h

theorem parseStringArray_arr {texts old : List Bytes}
    (hkey : root.item key = some (.arr (texts.map .str))) (h : Fit size cap texts) :
    parseStringArray root key size cap old = texts := by
  have hstrings : (texts.map Value.str).filterMap Value.string = texts := by
    rw [filterMap_map]
    exact filterMap_some
  rw [parseStringArray, hkey]
  change (((texts.map Value.str).filterMap Value.string).take cap).map (stored size) = texts
  rw [hstrings, take_of_length_le h.count]
  exact (map_congr_left fun s hs => stored_fits (h.each s hs)).trans (map_id _)

theorem cut_pairs {pairs : List (Bytes × Bytes)} (h : FitPairs size cap pairs) :
    (pairs.take cap).map (cutPair size) = pairs := by
  rw [take_of_length_le h.count]
  refine (map_congr_left fun r hr => ?_).trans (map_id _)
  exact Prod.ext (stored_fits (h.each r hr).1) (stored_fits (h.each r hr).2)

end Parsing

theorem fromJson_toJson {p : Profile} (h : p.Valid) (old : Profile) :
    fromJson old (toJson p) = p := by
  have hfault : (p.faultRegisters.map fun r => Value.obj [(ascii "name", .str r.1),
      (ascii "address", .str r.2)]).filterMap pairOf = p.faultRegisters := by
    rw [filterMap_map]
    exact filterMap_some
  have hperiph : (p.peripherals.map fun r => (r.1, Value.str r.2)).filterMap
      (fun f => f.2.string.map (Prod.mk f.1)) = p.peripherals := by
    rw [filterMap_map]
    exact filterMap_some
  obtain ⟨name, description, arch, gdbPath, rtos, init, registers, faults, periphs, cmds⟩ := p
  unfold fromJson
  rw [Profile.mk.injEq]
  refine ⟨parseString_str rfl h.name, parseString_str rfl h.description, parseString_str rfl h.arch,
    parseString_str rfl h.gdbPath, parseString_str rfl h.rtos,
    parseStringArray_arr rfl h.initCommands, parseStringArray_arr rfl h.importantRegisters, ?_, ?_,
    parseStringArray_arr rfl h.rtosCommands⟩
  · exact (congrArg (fun pairs => (pairs.take 16).map (cutPair 16)) hfault).trans
      (cut_pairs h.faultRegisters)
  · exact (congrArg (fun pairs => (pairs.take 64).map (cutPair 32)) hperiph).trans
      (cut_pairs h.peripherals)

/-- The default, or what a text has made of a valid profile. -/
def Obtainable (p : Profile) : Prop :=
  p = initDefault ∨ ∃ old text, old.Valid ∧ profileFromJson lib old text = some p

/-- A profile that is printed and read again is the same, whatever the destination held. -/
theorem profile_round_trip (p : Profile) (h : Obtainable lib p) (old : Profile) :
    profileFromJson lib old (lib.print (toJson p)) = some p := by
  have hvalid : p.Valid := by
    rcases h with rfl | ⟨before, text, hbefore, htext⟩
    · exact valid_initDefault
    · obtain ⟨root, -, rfl⟩ := Option.map_eq_some_iff.mp htext
      exact hbefore.fromJson root
  rw [profileFromJson, lib.parse_print, Option.map_some, fromJson_toJson hvalid]

def keyText (key : Bytes) : String := String.ofList (key.map fun c => Char.ofNat c.toNat)

theorem ascii_keyText (key : Bytes) : ascii (keyText key) = key := by
  have hbyte (c : UInt8) : UInt8.ofNat (Char.ofNat c.toNat).toNat = c := by
    have hvalid : c.toNat.isValidChar := .inl (c.toNat_lt.trans (by decide))
    rw [Char.ofNat, dif_pos hvalid]
    exact UInt8.ofNat_toNat
  rw [ascii, keyText, String.toList_ofList, map_map]
  exact (map_congr_left fun c _ => hbyte c).trans (map_id _)

mutual

def Value.json : Value → Json
  | .str s => .str s
  | .arr items => .arr (itemsJson items)
  | .obj fields => .obj (fieldsJson fields)
  | .other => .null

def itemsJson : List Value → List Json
  | [] => []
  | v :: vs => v.json :: itemsJson vs

def fieldsJson : List (Bytes × Value) → List (String × Json)
  | [] => []
  | (key, v) :: fields => (keyText key, v.json) :: fieldsJson fields

end

mutual

def valueOf : Json → Value
  | .str s => .str s
  | .arr items => .arr (itemsOf items)
  | .obj fields => .obj (fieldsOf fields)
  | _ => .other

def itemsOf : List Json → List Value
  | [] => []
  | j :: js => valueOf j :: itemsOf js

def fieldsOf : List (String × Json) → List (Bytes × Value)
  | [] => []
  | (key, j) :: fields => (ascii key, valueOf j) :: fieldsOf fields

end

mutual

theorem valueOf_json : ∀ v : Value, valueOf v.json = v
  | .str _ | .other => rfl
  | .arr items => congrArg Value.arr (itemsOf_itemsJson items)
  | .obj fields => congrArg Value.obj (fieldsOf_fieldsJson fields)

theorem itemsOf_itemsJson : ∀ items : List Value, itemsOf (itemsJson items) = items
  | [] => rfl
  | v :: items => congrArg₂ cons (valueOf_json v) (itemsOf_itemsJson items)

theorem fieldsOf_fieldsJson :
    ∀ fields : List (Bytes × Value), fieldsOf (fieldsJson fields) = fields
  | [] => rfl
  | (key, v) :: fields =>
    congrArg₂ cons (Prod.ext (ascii_keyText key) (valueOf_json v)) (fieldsOf_fieldsJson fields)

end

def textLibrary : Library Bytes where
  print v := JsonText.printValue v.json
  parse text := (JsonText.parseText text).map valueOf
  parse_print v := by rw [JsonText.parseText_print, Option.map_some, valueOf_json]

def twinNames : Value :=
  .obj [(ascii "peripheral_map", .obj [(List.replicate 40 65, .str (ascii "0x1")),
    (List.replicate 41 65, .str (ascii "0x2"))])]

theorem profile_round_trip_twins :
    let p := fromJson initDefault twinNames
    p.peripherals = [(List.replicate 31 65, ascii "0x1"), (List.replicate 31 65, ascii "0x2")] ∧
      profileFromJson textLibrary initDefault (textLibrary.print twinNames) = some p ∧
      profileFromJson textLibrary initDefault (textLibrary.print (toJson p)) = some p := by
  intro p
  have hread : profileFromJson textLibrary initDefault (textLibrary.print twinNames) = some p := by
    rw [profileFromJson, textLibrary.parse_print, Option.map_some]
  have hp : Obtainable textLibrary p := .inr ⟨initDefault, _, valid_initDefault, hread⟩
  exact ⟨by decide, hread, profile_round_trip textLibrary p hp initDefault⟩

end RoundTrip

def slash : UInt8 := 47

def fileSuffix : Bytes := ascii ".gdb-profile.json"

def configDir (home : Bytes) : Bytes := home ++ ascii "/.config/smolmux"

def profileDir (home : Option Bytes) : Option Bytes :=
  (home.filter (· ≠ [])).map fun home => stored 400 (configDir home)

def expand (home : Bytes) : Bytes → Bytes
  | 126 :: 47 :: rest => stored 512 (home ++ slash :: rest)
  | spec => stored 512 spec

def hasParent (path : Bytes) : Bool :=
  path == ascii ".." || (ascii "../").isPrefixOf path || decide (ascii "/../" <:+: path) ||
    (ascii "/..").isSuffixOf path

def baseName (dir path : Bytes) : Except Bytes Bytes :=
  if slash ∉ path then .ok path
  else if ¬dir <+: path ∨ path[dir.length]? ≠ some slash then
    .error (ascii "profiles may only be written to " ++ dir.take 100 ++ ascii " (got " ++
      path.take 100 ++ ascii ")")
  else
    let base := path.drop (dir.length + 1)
    if base = [] ∨ slash ∈ base then
      .error (ascii "write directly into " ++ dir.take 100 ++ ascii ", not a subdirectory " ++
        [226, 128, 148] ++ ascii " profile discovery does not recurse")
    else .ok base

def resolveProfileWritePath (home : Option Bytes) (spec : Bytes) (n whyLen : Nat) :
    Except Bytes Bytes :=
  let refuse (text : Bytes) : Except Bytes Bytes := .error (stored whyLen text)
  match profileDir home with
  | none => refuse (ascii "HOME is not set, so there is no profile directory to write to")
  | some dir =>
    let expanded := expand (home.getD []) spec
    if hasParent expanded then refuse (ascii "path contains '..'")
    else
      match baseName dir expanded with
      | .error why => refuse why
      | .ok base =>
        if base.length ≤ fileSuffix.length ∨ ¬fileSuffix <:+ base then
          refuse (ascii "filename must end in " ++ fileSuffix)
        else if n ≤ (dir ++ slash :: base).length then refuse (ascii "path too long")
        else .ok (dir ++ slash :: base)

theorem slash_notMem_baseName {dir path base : Bytes} (h : baseName dir path = .ok base) :
    slash ∉ base := by
  unfold baseName at h
  dsimp only at h
  split_ifs at h with hpath hother hbase
  · cases h
    exact fun hmem => hbase (.inr hmem)
  · cases h
    exact hpath

/-- Whatever the name, and whichever branch takes it: the path is that of a profile file in the
profile directory, and nothing else. -/
theorem profile_path_contained (home spec : Bytes) (n whyLen : Nat) (out : Bytes)
    (hfits : (configDir home).length < 400)
    (hok : resolveProfileWritePath (some home) spec n whyLen = .ok out) :
    ∃ base, out = configDir home ++ slash :: base ∧ base ≠ [] ∧ slash ∉ base ∧
      base ≠ ascii "." ∧ base ≠ ascii ".." ∧ fileSuffix <:+ base := by
  unfold resolveProfileWritePath at hok
  dsimp only at hok
  split at hok
  · cases hok
  next dir hdir =>
    obtain ⟨h, hhome, rfl⟩ := Option.map_eq_some_iff.mp hdir
    obtain rfl : home = h := by
      rw [Option.filter_eq_some_iff] at hhome
      exact Option.some.inj hhome.1
    rw [stored_fits hfits] at hok
    split_ifs at hok
    split at hok
    · cases hok
    next base hbase =>
      split_ifs at hok with hsuffix hlong
      cases hok
      rw [not_or, not_le, not_not] at hsuffix
      have hlength : 17 < base.length := hsuffix.1
      refine ⟨base, rfl, ?_, slash_notMem_baseName hbase, ?_, ?_, hsuffix.2⟩
      · rintro rfl
        exact absurd hlength (by decide)
      · rintro rfl
        exact absurd hlength (by decide)
      · rintro rfl
        exact absurd hlength (by decide)

theorem profile_path_contained_tilde :
    let home := ascii "/home/u"
    let spec := ascii "~/.config/smolmux/m.gdb-profile.json"
    resolveProfileWritePath (some home) spec 512 320 =
        .ok (ascii "/home/u/.config/smolmux/m.gdb-profile.json") ∧
      ∃ base, ascii "/home/u/.config/smolmux/m.gdb-profile.json" =
        configDir home ++ slash :: base ∧ slash ∉ base := by
  intro home spec
  have hok : resolveProfileWritePath (some home) spec 512 320 =
      .ok (ascii "/home/u/.config/smolmux/m.gdb-profile.json") := by rfl
  obtain ⟨base, hout, -, hslash, -⟩ := profile_path_contained home spec 512 320 _ (by decide) hok
  exact ⟨hok, base, hout, hslash⟩

end Smolmux.Mcp.GdbProfile
