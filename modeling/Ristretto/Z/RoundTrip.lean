import Ristretto.Z.Flags

/-! `String` of every flag that `NewSuperFlag` and `MergeAndCheckDefault` hand out parses back to
its map, in whatever order the range over the map visits it. The invariant that carries this is
`WellFormed`: keys are normalized and free of `;` and `=`, values are trimmed and free of `;`. -/

namespace Ristretto
namespace Z

open Strings

section
variable (lc : LowerCase)

theorem isSpace_replaceRune (c : Char) : isSpace (replaceRune '_' '-' c) = isSpace c := by
  unfold replaceRune; split_ifs with h
  · subst h; rfl
  · rfl

theorem normKey_data (k : String) :
    (normKey lc k).data =
      ((k.data.dropWhile isSpace).rdropWhile isSpace).map (replaceRune '_' '-' ∘ lc.toLower) := by
  simp [normKey,replaceAll,toLower,trimSpace,List.map_map]

theorem normRune_idem (c : Char) :
    replaceRune '_' '-' (lc.toLower (replaceRune '_' '-' (lc.toLower c))) =
      replaceRune '_' '-' (lc.toLower c) := by
  by_cases h : lc.toLower c = '_'
  · have : lc.toLower '-' = '-' := lc.toLower_uncased '-' (.inl (by decide))
    simp [replaceRune,h,this]
  · simp [replaceRune,h,lc.toLower_idem]

theorem normKey_normKey (k : String) : normKey lc (normKey lc k) = normKey lc k := by
  have hs : ∀ c, isSpace ((replaceRune '_' '-' ∘ lc.toLower) c) = isSpace c := fun c => by
    simp [isSpace_replaceRune,lc.isSpace_toLower]
  have ht := trimmed_trim k.data
  unfold Trimmed at ht
  apply String.ext
  rw [normKey_data,normKey_data,trim_map hs,ht,List.map_map]
  exact List.map_congr_left fun c _ => normRune_idem lc c

theorem not_mem_normKey {k : String} {d : Char} (hd : uncased d = true) (hd' : d ≠ '-')
    (h : d ∉ k.data) : d ∉ (normKey lc k).data := by
  rw [normKey_data]
  simp only [List.mem_map,Function.comp,not_exists,not_and]
  intro c hc he
  unfold replaceRune at he
  split_ifs at he
  · exact hd' he.symm
  · rw [lc.toLower_uncased c (.inr (he ▸ hd))] at he
    exact h (he ▸ mem_of_mem_trim hc)

theorem normKey_spaces_append {pre : List Char} (hpre : ∀ c ∈ pre, isSpace c = true)
    (k : List Char) : normKey lc ⟨pre ++ k⟩ = normKey lc ⟨k⟩ := by
  simp only [normKey,trimSpace,List.dropWhile_append_of_pos hpre]

structure WellFormed (m : FlagMap) : Prop where
  key : ∀ k ∈ m, normKey lc k = k ∧ ';' ∉ k.data ∧ '=' ∉ k.data
  value : ∀ k v, m.lookup k = some v → trimSpace v = v ∧ ';' ∉ v.data

theorem WellFormed.empty : WellFormed lc ∅ :=
  ⟨fun _ h => absurd h (Finmap.not_mem_empty),fun _ _ h => by simp at h⟩

theorem WellFormed.insert {m : FlagMap} (h : WellFormed lc m) {k v : String}
    (hk : normKey lc k = k ∧ ';' ∉ k.data ∧ '=' ∉ k.data) (hv : trimSpace v = v ∧ ';' ∉ v.data) :
    WellFormed lc (m.insert k v) := by
  refine ⟨fun k' hk' => ?_,fun k' v' h' => ?_⟩
  · rcases Finmap.mem_insert.1 hk' with rfl | hk'
    exacts [hk,h.key k' hk']
  · by_cases he : k' = k
    · subst he; rw [Finmap.lookup_insert] at h'; cases h'; exact hv
    · rw [Finmap.lookup_insert_of_ne _ he] at h'; exact h.value k' v' h'

theorem WellFormed.union {m src : FlagMap} (h : WellFormed lc m) (h' : WellFormed lc src) :
    WellFormed lc (m ∪ src) := by
  refine ⟨fun k hk => (Finmap.mem_union.1 hk).elim (h.key k) (h'.key k),fun k v hv => ?_⟩
  by_cases hk : k ∈ m
  · rw [Finmap.lookup_union_left hk] at hv; exact h.value k v hv
  · rw [Finmap.lookup_union_right hk] at hv; exact h'.value k v hv

theorem segKey_wellFormed {seg : String} (hs : ';' ∉ seg.data) :
    normKey lc (segKey lc seg) = segKey lc seg ∧ ';' ∉ (segKey lc seg).data ∧
      '=' ∉ (segKey lc seg).data := by
  refine ⟨normKey_normKey lc _,not_mem_normKey lc (by decide) (by decide) ?_,
    not_mem_normKey lc (by decide) (by decide) ?_⟩
  · exact fun h => hs ((List.takeWhile_sublist _).subset h)
  · exact fun h => by simpa using List.mem_takeWhile_imp h

theorem segValue_wellFormed {seg : String} (hs : ';' ∉ seg.data) :
    trimSpace (segValue seg) = segValue seg ∧ ';' ∉ (segValue seg).data :=
  ⟨trimSpace_trimSpace _,fun h => hs ((List.dropWhile_suffix _).subset
    ((List.drop_suffix _ _).subset (mem_of_mem_trim h)))⟩

theorem wellFormed_foldl {segs : List String} (hs : ∀ seg ∈ segs, ';' ∉ seg.data) {kvm : FlagMap}
    (h : WellFormed lc kvm) : WellFormed lc (segs.foldl (fileSegment lc) kvm) := by
  induction segs generalizing kvm with
  | nil => exact h
  | cons x xs ih =>
    have hx := hs x (List.mem_cons_self x xs)
    refine ih (fun seg h => hs seg (List.mem_cons_of_mem x h)) ?_
    unfold fileSegment; split_ifs
    exacts [h,h.insert lc (segKey_wellFormed lc hx) (segValue_wellFormed hx)]

theorem wellFormed_parseFlag {flag : String} {m : FlagMap} (h : parseFlag lc flag = .ok m) :
    WellFormed lc m := by
  by_cases hbad : ∃ seg ∈ split flag ';', trimSpace seg ≠ "" ∧ '=' ∉ seg.data
  · rw [parseFlag,loop_error lc hbad] at h; cases h
  push_neg at hbad
  rw [parseFlag,loop_ok lc hbad] at h
  cases h
  exact wellFormed_foldl lc (fun _ => not_mem_of_mem_split) (WellFormed.empty lc)

/-- The flags `NewSuperFlag` and `MergeAndCheckDefault` hand out. -/
inductive Obtained : SuperFlag → Prop
  | newSuperFlag {flag : String} {sf : SuperFlag} : newSuperFlag lc flag = .ok sf → Obtained sf
  | merge {r : Option SuperFlag} {flag : String} {sf : SuperFlag} :
      (∀ s, r = some s → Obtained s) →
      (SuperFlag.mergeAndCheckDefault lc r flag).1 = .ok sf → Obtained sf

theorem eq_ok_of_map_mk {e : Except Panic FlagMap} {sf : SuperFlag}
    (h : e.map SuperFlag.mk = .ok sf) : e = .ok sf.m := by
  cases e <;> simp [Except.map] at h
  subst h; rfl

theorem Obtained.wellFormed {sf : SuperFlag} (h : Obtained lc sf) : WellFormed lc sf.m := by
  induction h with
  | newSuperFlag h => exact wellFormed_parseFlag lc (eq_ok_of_map_mk h)
  | @merge r flag sf _ h ih =>
    cases r with
    | none => exact wellFormed_parseFlag lc (eq_ok_of_map_mk h)
    | some s =>
      simp only [SuperFlag.mergeAndCheckDefault] at h
      split at h
      · cases h
      · rename_i src hsrc
        split_ifs at h
        cases h
        exact (ih s rfl).union lc (wellFormed_parseFlag lc hsrc)

/-- The segment `String` writes for the key `k`, after the runes `pre` of the separator. -/
def entrySegment (m : FlagMap) (pre : List Char) (k : String) : String :=
  ⟨pre ++ (k ++ "=" ++ (m.lookup k).getD "").data⟩

theorem fileSegment_entrySegment {m : FlagMap} (hm : WellFormed lc m) {pre : List Char}
    (hpre : ∀ c ∈ pre, isSpace c = true) {k : String} (hk : k ∈ m) (kvm : FlagMap) :
    fileSegment lc kvm (entrySegment m pre k) = kvm.insert k ((m.lookup k).getD "") := by
  obtain ⟨hnorm,-,heq⟩ := hm.key k hk
  obtain ⟨v,hv⟩ := Finmap.mem_iff.1 hk
  have hpre' : ∀ c ∈ pre ++ k.data, decide (c ≠ '=') = true := fun c hc => by
    rcases List.mem_append.1 hc with hc | hc
    · have := hpre c hc; simp only [decide_eq_true_eq]; rintro rfl; exact absurd this (by decide)
    · simp only [decide_eq_true_eq]; rintro rfl; exact heq hc
  have hdata : (entrySegment m pre k).data = (pre ++ k.data) ++ '=' :: v.data := by
    simp [entrySegment,hv]
  have hblank : trimSpace (entrySegment m pre k) ≠ "" := by
    rw [Ne,trimSpace_eq_empty_iff,hdata]
    exact fun h => absurd (h '=' (by simp)) (by decide)
  rw [fileSegment,if_neg hblank,segKey,segValue,keyText,valueText,hdata,
    List.takeWhile_append_of_pos hpre',List.dropWhile_append_of_pos hpre']
  simp [normKey_spaces_append lc hpre,hnorm,(hm.value k v hv).1,hv]

theorem lookup_foldl_insert (f : String → String) (ks : List String) (kvm : FlagMap) (k : String) :
    (ks.foldl (fun m k => m.insert k (f k)) kvm).lookup k =
      if k ∈ ks then some (f k) else kvm.lookup k := by
  induction ks generalizing kvm with
  | nil => simp
  | cons k' ks ih =>
    rw [List.foldl_cons,ih]
    by_cases hk : k = k'
    · subst hk; simp [Finmap.lookup_insert]
    · simp [hk,Finmap.lookup_insert_of_ne _ hk]

theorem split_String {sf : SuperFlag} (wf : WellFormed lc sf.m) {k₀ : String} {ks : List String}
    (hmem : ∀ k ∈ k₀ :: ks, k ∈ sf.m) :
    split (SuperFlag.string (some sf) (k₀ :: ks)) ';' =
      entrySegment sf.m [] k₀ :: ks.map (entrySegment sf.m [' ']) := by
  rw [SuperFlag.string,List.map_cons,split_join]
  · simp [entrySegment,String.ext_iff,List.map_map,Function.comp_def]
  · simp only [List.mem_cons,List.mem_map]
    rintro s (rfl | ⟨k,hk,rfl⟩) <;> [have hk := hmem k₀ (List.mem_cons_self _ _);
      replace hk := hmem k (List.mem_cons_of_mem _ hk)] <;>
    · obtain ⟨v,hv⟩ := Finmap.mem_iff.1 hk
      simp [hv,(wf.key _ hk).2.1,(wf.value _ v hv).2]

theorem foldl_insert_lookup {m : FlagMap} {keys : List String} (hkeys : IsIterationOrder m keys) :
    keys.foldl (fun kvm k => kvm.insert k ((m.lookup k).getD "")) ∅ = m :=
  Finmap.ext_lookup fun k => by
    rw [lookup_foldl_insert]
    by_cases hk : k ∈ keys
    · obtain ⟨v,hv⟩ := Finmap.mem_iff.1 ((hkeys.2 k).1 hk)
      simp [hk,hv]
    · simp [hk,Finmap.lookup_eq_none.2 fun h => hk ((hkeys.2 k).2 h)]

/-- `String` is a lossless encoding of the option map: parsing it gives the map back, whatever the
order of the range over the map. -/
theorem parseFlag_String {sf : SuperFlag} (hsf : Obtained lc sf) {keys : List String}
    (hkeys : IsIterationOrder sf.m keys) :
    parseFlag lc (SuperFlag.string (some sf) keys) = .ok sf.m := by
  have wf := hsf.wellFormed lc
  have hmem : ∀ k ∈ keys, k ∈ sf.m := fun k hk => (hkeys.2 k).1 hk
  cases keys with
  | nil => rw [← foldl_insert_lookup hkeys]; rfl
  | cons k₀ ks =>
    have hsegs := split_String lc wf hmem
    have heq : ∀ seg ∈ split (SuperFlag.string (some sf) (k₀ :: ks)) ';', '=' ∈ seg.data := by
      rw [hsegs]; simp [entrySegment]
    rw [parseFlag,loop_ok lc (fun seg hs _ => heq seg hs),hsegs,List.foldl_cons,
      fileSegment_entrySegment lc wf (by simp) (hmem k₀ (List.mem_cons_self _ _)),List.foldl_map,
      List.foldl_ext _ (fun m k => m.insert k ((sf.m.lookup k).getD ""))
        _ fun m k hk => fileSegment_entrySegment lc wf (by simp [isSpace])
          (hmem k (List.mem_cons_of_mem _ hk)) m]
    exact congrArg _ (foldl_insert_lookup hkeys)

theorem parseFlag_String_newSuperFlag :
    parseFlag LowerCase.ascii
        (SuperFlag.string (some ⟨((∅ : FlagMap).insert "a" "1").insert "b-x" "2"⟩) ["a","b-x"]) =
      .ok (((∅ : FlagMap).insert "a" "1").insert "b-x" "2") :=
  parseFlag_String LowerCase.ascii (.newSuperFlag (show newSuperFlag LowerCase.ascii
    "a=1; B_x = 2" = .ok ⟨((∅ : FlagMap).insert "a" "1").insert "b-x" "2"⟩ from rfl))
    ⟨by decide,fun k => by simp [or_comm,Finmap.not_mem_empty]⟩
end

end Z
end Ristretto
