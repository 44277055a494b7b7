import Ristretto.Strings
import Mathlib.Data.Finmap

/-! The option strings of `z.SuperFlag`: `;`-separated `key=value` segments. A Go panic is the
`error` of an `Except`; a Go `map[string]string` is a `Finmap`, which has no iteration order. -/

namespace Ristretto
namespace Z

open Strings

abbrev FlagMap := Finmap fun _ : String => String

structure SuperFlag where
  m : FlagMap
  deriving DecidableEq

/-- The panics of this file: `splits[1]` of a segment without `=`, and `Found invalid options in %s.
Valid options: %v` of the receiver and the default string. -/
inductive Panic
  | indexOutOfRange
  | invalidOptions (sf : SuperFlag) (flag : String)
  deriving DecidableEq

section
variable (lc : LowerCase)

/-- The key `parseFlag` files a segment under: trimmed, lowered, `_` replaced by `-`. -/
def normKey (k : String) : String := replaceAll (toLower lc (trimSpace k)) '_' '-'

/-- The loop of `parseFlag` over the segments, from the map built so far. -/
def parseFlag.loop : List String → FlagMap → Except Panic FlagMap
  | [], kvm => .ok kvm
  | kv :: kvs, kvm =>
    if trimSpace kv = "" then parseFlag.loop kvs kvm
    else match splitN kv '=' 2 with
      | k :: v :: _ => parseFlag.loop kvs (kvm.insert (normKey lc k) (trimSpace v))
      | _ => .error .indexOutOfRange

def parseFlag (flag : String) : Except Panic FlagMap :=
  parseFlag.loop lc (split flag ';') ∅

def newSuperFlag (flag : String) : Except Panic SuperFlag :=
  (parseFlag lc flag).map SuperFlag.mk

/-- `keys` is an order in which a range over `m` may visit its keys. -/
def IsIterationOrder (m : FlagMap) (keys : List String) : Prop :=
  keys.Nodup ∧ ∀ k, k ∈ keys ↔ k ∈ m

/-- `(*SuperFlag).MergeAndCheckDefault` on a receiver that is `none` when nil. The method writes
into the receiver's own map, so the model returns the result with the receiver's flag after the
call. The second loop copies the entries of `src` whose keys `sf.m` lacks; the keys of `src` are
distinct, so whatever the order, it leaves the left-biased union. -/
def SuperFlag.mergeAndCheckDefault (sf : Option SuperFlag) (flag : String) :
    Except Panic SuperFlag × Option SuperFlag :=
  match sf with
  | none => ((parseFlag lc flag).map SuperFlag.mk,none)
  | some sf =>
    let numKeys : ℤ := sf.m.keys.card
    match parseFlag lc flag with
    | .error p => (.error p,some sf)
    | .ok src =>
      let numKeys := numKeys - (src.keys.filter (· ∈ sf.m)).card
      if numKeys ≠ 0 then (.error (.invalidOptions sf flag),some sf)
      else (.ok ⟨sf.m ∪ src⟩,some ⟨sf.m ∪ src⟩)

/-- `(*SuperFlag).String` of a receiver that is `none` when nil. Go ranges over `sf.m` in an order
of its own choosing; `keys` is that order. -/
def SuperFlag.string : Option SuperFlag → List String → String
  | none, _ => ""
  | some sf, keys => join (keys.map fun k => k ++ "=" ++ (sf.m.lookup k).getD "") "; "

def keyText (seg : String) : String := ⟨seg.data.takeWhile (· ≠ '=')⟩

def valueText (seg : String) : String := ⟨(seg.data.dropWhile (· ≠ '=')).drop 1⟩

def segKey (seg : String) : String := normKey lc (keyText seg)

def segValue (seg : String) : String := trimSpace (valueText seg)

/-- The last non-blank segment whose key normalizes to `k`. -/
def lastSegment (segs : List String) (k : String) : Option String :=
  (segs.reverse.filter fun seg => trimSpace seg ≠ "").find? fun seg => segKey lc seg = k

def fileSegment (kvm : FlagMap) (seg : String) : FlagMap :=
  if trimSpace seg = "" then kvm else kvm.insert (segKey lc seg) (segValue seg)

theorem splitN_two (s : String) (sep : Char) :
    splitN s sep 2 = if sep ∈ s.data then
      [⟨s.data.takeWhile (· ≠ sep)⟩,⟨(s.data.dropWhile (· ≠ sep)).drop 1⟩] else [s] := rfl

theorem loop_error {segs : List String} (h : ∃ seg ∈ segs, trimSpace seg ≠ "" ∧ '=' ∉ seg.data)
    (kvm : FlagMap) : parseFlag.loop lc segs kvm = .error .indexOutOfRange := by
  induction segs generalizing kvm with
  | nil => simp at h
  | cons x xs ih =>
    obtain ⟨seg,hseg,hne,heq⟩ := h
    rw [parseFlag.loop,splitN_two]
    rcases List.mem_cons.1 hseg with rfl | hs
    · simp [hne,heq]
    · split_ifs <;> first | rfl | exact ih ⟨seg,hs,hne,heq⟩ _

theorem loop_ok {segs : List String} (h : ∀ seg ∈ segs, trimSpace seg ≠ "" → '=' ∈ seg.data)
    (kvm : FlagMap) : parseFlag.loop lc segs kvm = .ok (segs.foldl (fileSegment lc) kvm) := by
  induction segs generalizing kvm with
  | nil => rfl
  | cons x xs ih =>
    have hxs := ih (fun seg hs => h seg (List.mem_cons_of_mem x hs))
    rw [parseFlag.loop,List.foldl_cons,fileSegment]
    by_cases hx : trimSpace x = ""
    · simp only [hx,if_true]; exact hxs _
    · simp only [hx,if_false,splitN_two,h x (List.mem_cons_self x xs) hx]; exact hxs _

theorem lookup_foldl_fileSegment (segs : List String) (kvm : FlagMap) (k : String) :
    (segs.foldl (fileSegment lc) kvm).lookup k =
      ((lastSegment lc segs k).map segValue).or (kvm.lookup k) := by
  induction segs generalizing kvm with
  | nil => rfl
  | cons x xs ih =>
    simp only [List.foldl_cons,ih,lastSegment,List.reverse_cons,List.filter_append,
      List.find?_append,Option.map_or',Option.or_assoc]
    congr 1
    unfold fileSegment
    by_cases hx : trimSpace x = "" <;> by_cases hk : segKey lc x = k <;>
      simp [hx,hk,Finmap.lookup_insert_of_ne,Ne.symm]

/-- `parseFlag` fails, by `splits[1]`, exactly when a non-blank segment has no `=`; otherwise its
map files each key under which a non-blank segment normalizes, with the value of the last such
segment. -/
theorem parseFlag_spec (flag : String) :
    ((∃ seg ∈ split flag ';', trimSpace seg ≠ "" ∧ '=' ∉ seg.data) →
      parseFlag lc flag = .error .indexOutOfRange) ∧
    ((∀ seg ∈ split flag ';', trimSpace seg ≠ "" → '=' ∈ seg.data) →
      ∃ m, parseFlag lc flag = .ok m ∧
        (∀ k, k ∈ m ↔ ∃ seg ∈ split flag ';', trimSpace seg ≠ "" ∧ segKey lc seg = k) ∧
        ∀ k, m.lookup k = (lastSegment lc (split flag ';') k).map segValue) := by
  refine ⟨fun h => loop_error lc h ∅,fun h => ⟨_,loop_ok lc h ∅,fun k => ?_,fun k => ?_⟩⟩
  · rw [← Finmap.lookup_isSome,lookup_foldl_fileSegment,Finmap.lookup_empty,Option.or_none,
      Option.isSome_map',lastSegment,List.find?_isSome]
    simp [and_assoc]
  · rw [lookup_foldl_fileSegment,Finmap.lookup_empty,Option.or_none]

theorem lookup_of_parseFlag_ok {flag : String} {m : FlagMap} (h : parseFlag lc flag = .ok m)
    (k : String) : m.lookup k = (lastSegment lc (split flag ';') k).map segValue := by
  by_cases hbad : ∃ seg ∈ split flag ';', trimSpace seg ≠ "" ∧ '=' ∉ seg.data
  · rw [parseFlag,loop_error lc hbad] at h; cases h
  · push_neg at hbad
    rw [parseFlag,loop_ok lc hbad] at h
    cases h
    rw [lookup_foldl_fileSegment,Finmap.lookup_empty,Option.or_none]

theorem numKeys_eq_zero_iff (m src : FlagMap) :
    (m.keys.card : ℤ) - (src.keys.filter (· ∈ m)).card = 0 ↔ ∀ k ∈ m, k ∈ src := by
  have hsub : src.keys.filter (· ∈ m) ⊆ m.keys :=
    fun k hk => Finmap.mem_keys.2 (Finset.mem_filter.1 hk).2
  rw [sub_eq_zero,Int.ofNat_inj]
  constructor
  · intro h k hk
    have he := Finset.eq_of_subset_of_card_le hsub h.le
    rw [← Finmap.mem_keys,← he,Finset.mem_filter] at hk
    exact Finmap.mem_keys.1 hk.1
  · intro h
    congr 1
    ext k
    simp only [Finset.mem_filter,Finmap.mem_keys]
    exact ⟨fun hk => ⟨h k hk,hk⟩,fun hk => hk.2⟩

/-- `MergeAndCheckDefault` panics, leaving the receiver as it was, exactly when the receiver has a
key the defaults lack, which is when its count `numKeys` stays nonzero; otherwise it keeps every
option set and adds the defaults of the rest. A nil receiver gets the defaults. -/
theorem mergeAndCheckDefault_spec (sf : SuperFlag) (d : String) (src : FlagMap)
    (hd : parseFlag lc d = .ok src) :
    ((sf.m.keys.card : ℤ) - (src.keys.filter (· ∈ sf.m)).card ≠ 0 ↔ ∃ k ∈ sf.m, k ∉ src) ∧
    ((∃ k ∈ sf.m, k ∉ src) ↔ SuperFlag.mergeAndCheckDefault lc (some sf) d =
      (.error (.invalidOptions sf d),some sf)) ∧
    ((∀ k ∈ sf.m, k ∈ src) → ∃ sf', SuperFlag.mergeAndCheckDefault lc (some sf) d =
      (.ok sf',some sf') ∧ (∀ k ∈ sf.m, sf'.m.lookup k = sf.m.lookup k) ∧
      ∀ k, k ∉ sf.m → sf'.m.lookup k = src.lookup k) ∧
    SuperFlag.mergeAndCheckDefault lc none d = (.ok ⟨src⟩,none) := by
  have hcount : (sf.m.keys.card : ℤ) - (src.keys.filter (· ∈ sf.m)).card ≠ 0 ↔
      ∃ k ∈ sf.m, k ∉ src := by
    rw [Ne,numKeys_eq_zero_iff]; push_neg; rfl
  simp only [SuperFlag.mergeAndCheckDefault,hd,Except.map]
  refine ⟨hcount,?_,fun h => ?_,trivial⟩
  · split_ifs with hne <;> simp [← hcount,hne]
  · have hz : ¬(sf.m.keys.card : ℤ) - (src.keys.filter (· ∈ sf.m)).card ≠ 0 := by
      rw [hcount]; push_neg; exact h
    refine ⟨⟨sf.m ∪ src⟩,by simp only [hz,if_false],fun k hk => ?_,fun k hk => ?_⟩
    exacts [Finmap.lookup_union_left hk,Finmap.lookup_union_right hk]

theorem mergeAndCheckDefault_flagDefault :
    ∃ sf src, newSuperFlag LowerCase.ascii "one=true; two=4;" = .ok sf ∧
      parseFlag LowerCase.ascii "one=false; two=; three=;" = .ok src ∧
      (∃ sf', SuperFlag.mergeAndCheckDefault LowerCase.ascii (some sf) "one=false; two=; three=;" =
          (.ok sf',some sf') ∧ sf'.m.lookup "one" = some "true" ∧ sf'.m.lookup "two" = some "4" ∧
        sf'.m.lookup "three" = some "") ∧
      ∃ sf₂, newSuperFlag LowerCase.ascii "one=true; four=4;" = .ok sf₂ ∧
        SuperFlag.mergeAndCheckDefault LowerCase.ascii (some sf₂) "one=false; two=; three=;" =
          (.error (.invalidOptions sf₂ "one=false; two=; three=;"),some sf₂) :=
  let ⟨sf',hm,hset,hdflt⟩ := (mergeAndCheckDefault_spec LowerCase.ascii _ "one=false; two=; three=;" _
    rfl).2.2.1 (by decide)
  ⟨_,_,rfl,rfl,⟨sf',hm,(hset "one" (by decide)).trans rfl,(hset "two" (by decide)).trans rfl,
      (hdflt "three" (by decide)).trans rfl⟩,
    _,rfl,(mergeAndCheckDefault_spec LowerCase.ascii _ "one=false; two=; three=;" _ rfl).2.1.1
      ⟨"four",by decide,by decide⟩⟩

end

end Z
end Ristretto
