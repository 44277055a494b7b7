import Ristretto.Z.Flags

/-! How the flag operations compose. Parsing a concatenation `a + ";" + b` parses `a`, then `b`,
an option of `b` overriding the same option of `a`; a merge that succeeds leaves exactly the options
of the defaults, so merging the same defaults again changes nothing. -/

namespace Ristretto
namespace Z

open Strings

theorem splitOnP_append_cons {α : Type} (p : α → Bool) (xs ys : List α) {sep : α}
    (hsep : p sep = true) : (xs ++ sep :: ys).splitOnP p = xs.splitOnP p ++ ys.splitOnP p := by
  induction xs with
  | nil => simp [hsep]
  | cons x xs ih =>
    obtain ⟨l,ls,h⟩ := List.exists_cons_of_ne_nil (List.splitOnP_ne_nil p xs)
    rw [List.cons_append,List.splitOnP_cons,List.splitOnP_cons,ih,h]
    split_ifs <;> rfl

theorem split_append (a b : String) : split (a ++ ";" ++ b) ';' = split a ';' ++ split b ';' := by
  have hdata : (a ++ ";" ++ b).data = a.data ++ ';' :: b.data := by simp
  rw [split,hdata,List.splitOn,splitOnP_append_cons _ _ _ (by simp),List.map_append]
  rfl

section
variable (lc : LowerCase)

theorem loop_append (xs ys : List String) (kvm : FlagMap) :
    parseFlag.loop lc (xs ++ ys) kvm = (parseFlag.loop lc xs kvm).bind (parseFlag.loop lc ys) := by
  induction xs generalizing kvm with
  | nil => rfl
  | cons x xs ih =>
    simp only [List.cons_append,parseFlag.loop]
    split_ifs
    · exact ih kvm
    · split
      · exact ih _
      · rfl

theorem loop_union (segs : List String) (m kvm : FlagMap) :
    parseFlag.loop lc segs (m ∪ kvm) = (parseFlag.loop lc segs m).map (· ∪ kvm) := by
  induction segs generalizing m with
  | nil => rfl
  | cons x xs ih =>
    simp only [parseFlag.loop]
    split_ifs
    · exact ih m
    · split
      · rw [Finmap.insert_union]; exact ih _
      · rfl

/-- Parsing `a + ";" + b` parses `a` and then `b`: it panics when either does, and otherwise an
option of `b` overrides the same option of `a` (`Finmap` union keeps its left operand's values). -/
theorem parseFlag_append (a b : String) :
    parseFlag lc (a ++ ";" ++ b) =
      (parseFlag lc a).bind fun ma => (parseFlag lc b).map (· ∪ ma) := by
  simp only [parseFlag]
  rw [split_append,loop_append]
  congr 1
  funext ma
  rw [← loop_union,Finmap.empty_union]

example : parseFlag LowerCase.ascii ("a=1; b=2" ++ ";" ++ "A = 3") =
    .ok (((∅ : FlagMap).insert "b" "2").insert "a" "3") := rfl

theorem union_eq_left {m src : FlagMap} (h : ∀ k ∈ src, k ∈ m) : m ∪ src = m :=
  Finmap.ext_lookup fun k => by
    by_cases hk : k ∈ m
    · exact Finmap.lookup_union_left hk
    · rw [Finmap.lookup_union_right hk,Finmap.lookup_eq_none.2 hk,
        Finmap.lookup_eq_none.2 fun h' => hk (h k h')]

/-- A merge that succeeds leaves exactly the options of the defaults, and merging the same defaults
into its result again returns that result, without a panic. -/
theorem mergeAndCheckDefault_idem (sf : Option SuperFlag) (d : String) (sf' : SuperFlag)
    (h : (SuperFlag.mergeAndCheckDefault lc sf d).1 = .ok sf') :
    ∃ src, parseFlag lc d = .ok src ∧ (∀ k, k ∈ sf'.m ↔ k ∈ src) ∧
      SuperFlag.mergeAndCheckDefault lc (some sf') d = (.ok sf',some sf') := by
  cases hd : parseFlag lc d with
  | error e => cases sf <;> simp [SuperFlag.mergeAndCheckDefault,hd,Except.map] at h
  | ok src =>
    have hkeys : ∀ k, k ∈ sf'.m ↔ k ∈ src := by
      cases sf with
      | none =>
        simp only [SuperFlag.mergeAndCheckDefault,hd,Except.map,Except.ok.injEq] at h
        subst h; exact fun _ => Iff.rfl
      | some s =>
        simp only [SuperFlag.mergeAndCheckDefault,hd] at h
        split_ifs at h with hn
        cases h
        have hs := (numKeys_eq_zero_iff s.m src).1 (not_not.1 hn)
        exact fun k => ⟨fun hk => (Finmap.mem_union.1 hk).elim (hs k) id,
          fun hk => Finmap.mem_union.2 (.inr hk)⟩
    refine ⟨src,rfl,hkeys,?_⟩
    simp only [SuperFlag.mergeAndCheckDefault,hd]
    rw [if_neg (not_not.2 ((numKeys_eq_zero_iff _ _).2 fun k hk => (hkeys k).1 hk)),
      union_eq_left fun k hk => (hkeys k).2 hk]

theorem mergeAndCheckDefault_idem_flagDefault :
    ∃ src, parseFlag LowerCase.ascii "one=false; two=; three=;" = .ok src ∧
      (∀ k, k ∈ (((∅ : FlagMap).insert "one" "false").insert "two" "").insert "three" "" ↔
        k ∈ src) ∧
      SuperFlag.mergeAndCheckDefault LowerCase.ascii
        (some ⟨(((∅ : FlagMap).insert "one" "false").insert "two" "").insert "three" ""⟩)
        "one=false; two=; three=;" =
        (.ok ⟨(((∅ : FlagMap).insert "one" "false").insert "two" "").insert "three" ""⟩,
          some ⟨(((∅ : FlagMap).insert "one" "false").insert "two" "").insert "three" ""⟩) :=
  mergeAndCheckDefault_idem LowerCase.ascii none "one=false; two=; three=;" _ rfl

end

end Z
end Ristretto
