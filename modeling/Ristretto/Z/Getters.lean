import Ristretto.Z.RoundTrip

/-! The getters of `SuperFlag`. `GetString` and `Has` read the map; the other getters parse the
value with `strconv` and end the program with `log.Fatalf` when it does not parse, which the model
returns as the `error` of an `Except`. The `strconv` parsers are parameters. Options are looked up
as given, not normalized, so on every flag the package hands out an option name that normalization
changes reads as unset. -/

namespace Ristretto
namespace Z

open Strings

/-- The `strconv` parsers the getters call, `E` the error they fail with. -/
structure Strconv (E : Type) where
  parseBool : String → Except E Bool
  parseFloat : String → ℕ → Except E Float
  parseInt : String → ℕ → ℕ → Except E ℤ
  parseUint : String → ℕ → ℕ → Except E UInt64

/-- What a getter hands to `log.Fatalf`: the parser's error, wrapped by `errors.Wrapf` with
`Unable to parse %s as %s for key: %s. Options: %s`, of the value, the type, the option and the
receiver. -/
structure Fatal (E : Type) where
  err : E
  val : String
  typ : String
  opt : String
  sf : Option SuperFlag

/-- `(*SuperFlag).GetString`, of a receiver that is `none` when nil; the other getters are the
methods of the same names. -/
def getString : Option SuperFlag → String → String
  | none, _ => ""
  | some sf, opt => (sf.m.lookup opt).getD ""

def has (sf : Option SuperFlag) (opt : String) : Bool := getString sf opt != ""

section
variable {E : Type} (conv : Strconv E)

/-- The body the parsing getters share: the zero value for an unset or empty option, otherwise the
parsed value, or `log.Fatalf`. -/
def getParsed {α : Type} (typ : String) (zero : α) (parse : String → Except E α)
    (sf : Option SuperFlag) (opt : String) : Except (Fatal E) α :=
  let val := getString sf opt
  if val = "" then .ok zero
  else match parse val with
    | .ok b => .ok b
    | .error err => .error ⟨err,val,typ,opt,sf⟩

def getBool : Option SuperFlag → String → Except (Fatal E) Bool :=
  getParsed "bool" false conv.parseBool

def getFloat64 : Option SuperFlag → String → Except (Fatal E) Float :=
  getParsed "float64" 0 (conv.parseFloat · 64)

def getInt64 : Option SuperFlag → String → Except (Fatal E) ℤ :=
  getParsed "int64" 0 (conv.parseInt · 0 64)

def getUint64 : Option SuperFlag → String → Except (Fatal E) UInt64 :=
  getParsed "uint64" 0 (conv.parseUint · 0 64)

/-- `GetUint32` parses with bit size 32 and converts the `uint64` it gets with `uint32(u)`. -/
def getUint32 (sf : Option SuperFlag) (opt : String) : Except (Fatal E) UInt32 :=
  (getParsed "uint32" 0 (conv.parseUint · 0 32) sf opt).map UInt64.toUInt32

variable {α : Type} (typ : String) (zero : α) (parse : String → Except E α)
  (sf : Option SuperFlag) (opt : String)

theorem getParsed_of_getString_eq_empty (h : getString sf opt = "") :
    getParsed typ zero parse sf opt = .ok zero := by
  simp [getParsed,h]

theorem getParsed_eq_error (f : Fatal E) :
    getParsed typ zero parse sf opt = .error f ↔
      getString sf opt ≠ "" ∧ parse (getString sf opt) = .error f.err ∧
        f = ⟨f.err,getString sf opt,typ,opt,sf⟩ := by
  unfold getParsed; dsimp only
  split_ifs with h
  · simp [h]
  · cases parse (getString sf opt) with
    | ok b => simp
    | error err =>
      constructor
      · rintro ⟨⟩; exact ⟨h,rfl,rfl⟩
      · rintro ⟨-,⟨⟩,hf⟩; rw [hf]

theorem getUint32_toNat (h32 : ∀ s u, conv.parseUint s 0 32 = .ok u → u.toNat < 2 ^ 32) :
    (getUint32 conv sf opt).map UInt32.toNat =
      (getParsed "uint32" 0 (conv.parseUint · 0 32) sf opt).map UInt64.toNat := by
  unfold getUint32 getParsed; dsimp only
  split_ifs
  · rfl
  · cases hu : conv.parseUint (getString sf opt) 0 32 with
    | ok u =>
      have hlt := h32 _ u hu
      show Except.ok (u.toNat % 2 ^ 32) = .ok u.toNat
      rw [Nat.mod_eq_of_lt hlt]
    | error err => rfl

end

def parseDecimal (s : String) : Option ℕ :=
  if s.data ≠ [] ∧ s.data.all Char.isDigit then
    some (s.data.foldl (fun n c => 10 * n + (c.toNat - '0'.toNat)) 0)
  else none

/-- A stand-in for `strconv` that reads decimal numerals only, with `ParseBool` as Go has it. -/
def decimalStrconv : Strconv Unit where
  parseBool s :=
    if s ∈ ["1","t","T","true","TRUE","True"] then .ok true
    else if s ∈ ["0","f","F","false","FALSE","False"] then .ok false else .error ()
  parseFloat _ _ := .error ()
  parseInt s _ bits :=
    let i : Option ℤ := match s.data with
      | '-' :: ds => (parseDecimal ⟨ds⟩).map fun n => -n
      | _ => (parseDecimal s).map Nat.cast
    match i with
    | some i => if -2 ^ (bits - 1) ≤ i ∧ i < 2 ^ (bits - 1) then .ok i else .error ()
    | none => .error ()
  parseUint s _ bits := match parseDecimal s with
    | some n => if n < 2 ^ bits then .ok n.toUInt64 else .error ()
    | none => .error ()

theorem getUint32_toNat_max :
    (getUint32 decimalStrconv (some ⟨(∅ : FlagMap).insert "n" "4294967295"⟩) "n").map
      UInt32.toNat = .ok 4294967295 :=
  (getUint32_toNat decimalStrconv _ _ fun s u h => by
    simp only [decimalStrconv] at h
    split at h
    · split_ifs at h with hn
      cases h
      show _ % 2 ^ 64 < _
      omega
    · cases h).trans rfl

section
variable (lc : LowerCase) {E : Type} (conv : Strconv E)

theorem getString_of_normKey_ne {sf : SuperFlag} (hsf : Obtained lc sf) {opt : String}
    (hopt : normKey lc opt ≠ opt) : getString (some sf) opt = "" := by
  have : opt ∉ sf.m := fun h => hopt ((hsf.wellFormed lc).key opt h).1
  simp [getString,Finmap.lookup_eq_none.2 this]

/-- On every flag `NewSuperFlag` and `MergeAndCheckDefault` hand out, an option name that key
normalization changes (one with `_`, an upper-case letter or surrounding space) is never found:
`Has` is false and every getter returns its zero value. -/
theorem getters_of_normKey_ne {sf : SuperFlag} (hsf : Obtained lc sf) (opt : String)
    (hopt : normKey lc opt ≠ opt) :
    has (some sf) opt = false ∧ getBool conv (some sf) opt = .ok false ∧
      getFloat64 conv (some sf) opt = .ok 0 ∧
      getInt64 conv (some sf) opt = .ok 0 ∧
      getUint64 conv (some sf) opt = .ok 0 ∧
      getUint32 conv (some sf) opt = .ok 0 := by
  have h := getString_of_normKey_ne lc hsf hopt
  simp [has,getBool,getFloat64,getInt64,
    getUint64,getUint32,getParsed_of_getString_eq_empty _ _ _ _ _ h,h,
    Except.map]
  rfl

theorem getters_of_normKey_ne_cacheMb :
    has (some ⟨(∅ : FlagMap).insert "cache-mb" "64"⟩) "cache_mb" = false ∧
      getUint64 decimalStrconv (some ⟨(∅ : FlagMap).insert "cache-mb" "64"⟩) "cache_mb" =
        .ok 0 :=
  let h := getters_of_normKey_ne LowerCase.ascii decimalStrconv (.newSuperFlag (show
    newSuperFlag LowerCase.ascii "Cache_MB=64" = .ok ⟨(∅ : FlagMap).insert "cache-mb" "64"⟩ from rfl))
    "cache_mb" (by decide)
  ⟨h.1,h.2.2.2.2.1⟩

theorem lookup_union_or (m src : FlagMap) (k : String) :
    (m ∪ src).lookup k = (m.lookup k).or (src.lookup k) := by
  cases hm : m.lookup k with
  | none => rw [Finmap.lookup_union_right (Finmap.lookup_eq_none.1 hm)]; rfl
  | some v => rw [Finmap.lookup_union_left (Finmap.mem_of_lookup_eq_some hm),hm]; rfl

/-- Options a user sets, merged with the defaults: every option reads as the value of the user's
last segment naming it, and otherwise as the value of the defaults' last segment naming it. -/
theorem getString_mergeAndCheckDefault (s d : String) {sf sf' : SuperFlag}
    (hs : newSuperFlag lc s = .ok sf) (h : (SuperFlag.mergeAndCheckDefault lc (some sf) d).1 = .ok sf')
    (opt : String) :
    getString (some sf') opt = (((lastSegment lc (split s ';') opt).map segValue).or
      ((lastSegment lc (split d ';') opt).map segValue)).getD "" := by
  cases hps : parseFlag lc s with
  | error e => simp [newSuperFlag,hps,Except.map] at hs
  | ok u =>
    obtain rfl : sf = ⟨u⟩ := by simpa [newSuperFlag,hps,Except.map] using hs.symm
    cases hpd : parseFlag lc d with
    | error e => simp [SuperFlag.mergeAndCheckDefault,hpd] at h
    | ok src =>
      simp only [SuperFlag.mergeAndCheckDefault,hpd] at h
      split_ifs at h
      cases h
      rw [getString,lookup_union_or,lookup_of_parseFlag_ok lc hps,lookup_of_parseFlag_ok lc hpd]

theorem getString_mergeAndCheckDefault_cacheMb :
    ∃ sf sf', newSuperFlag LowerCase.ascii "Cache_MB=64; compression=zstd" = .ok sf ∧
      (SuperFlag.mergeAndCheckDefault LowerCase.ascii (some sf)
        "cache-mb=32; compression=snappy; verbose=false").1 = .ok sf' ∧
      getString (some sf') "cache-mb" = "64" ∧ getString (some sf') "verbose" = "false" :=
  ⟨_,_,rfl,rfl,
    (getString_mergeAndCheckDefault LowerCase.ascii "Cache_MB=64; compression=zstd"
      "cache-mb=32; compression=snappy; verbose=false" rfl rfl "cache-mb").trans rfl,
    (getString_mergeAndCheckDefault LowerCase.ascii "Cache_MB=64; compression=zstd"
      "cache-mb=32; compression=snappy; verbose=false" rfl rfl "verbose").trans rfl⟩

end

end Z
end Ristretto
