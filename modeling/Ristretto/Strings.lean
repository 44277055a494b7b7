import Mathlib.Data.List.DropRight

/-! The functions of Go's `strings` and `unicode` packages that the flag parser of `z` calls.
A Go string is the Lean `String` of its runes, so strings that are not valid UTF-8 are not
covered; a separator is a single rune, as every call site passes one. -/

namespace Ristretto
namespace Strings

/-- `unicode.IsSpace`: the Latin-1 spaces, then the `White_Space` ranges above Latin-1. -/
def isSpace (c : Char) : Bool :=
  if c.toNat ≤ 0xFF then
    c.toNat ∈ [0x09,0x0A,0x0B,0x0C,0x0D,0x20,0x85,0xA0]
  else
    c.toNat = 0x1680 || (0x2000 ≤ c.toNat && c.toNat ≤ 0x200A) ||
      c.toNat ∈ [0x2028,0x2029,0x202F,0x205F,0x3000]

def uncased (c : Char) : Bool :=
  isSpace c || c = ';' || c = '=' || c = '-' || c = '_'

/-- The rune mapping of `unicode.ToLower`. Its case tables belong to the Go runtime and are not
transcribed here: a `LowerCase` is any mapping with the two properties of those tables that the
parser relies on. -/
structure LowerCase where
  toLower : Char → Char
  toLower_idem : ∀ c, toLower (toLower c) = toLower c
  toLower_uncased : ∀ c, uncased c = true ∨ uncased (toLower c) = true → toLower c = c

def trimSpace (s : String) : String :=
  ⟨(s.data.dropWhile isSpace).rdropWhile isSpace⟩

/-- `strings.ToLower` on valid UTF-8: `unicode.ToLower` rune by rune. -/
def toLower (lc : LowerCase) (s : String) : String :=
  ⟨s.data.map lc.toLower⟩

def replaceRune (old new c : Char) : Char := if c = old then new else c

def replaceAll (s : String) (old new : Char) : String :=
  ⟨s.data.map (replaceRune old new)⟩

/-- `strings.Split`: the pieces between the separators, `[""]` for the empty string. -/
def split (s : String) (sep : Char) : List String :=
  (s.data.splitOn sep).map String.mk

/-- `strings.SplitN` for `n ≥ 0`: at most `n` pieces, the last one unsplit. -/
def splitN (s : String) (sep : Char) : ℕ → List String
  | 0 => []
  | 1 => [s]
  | n+2 =>
    if sep ∈ s.data then
      ⟨s.data.takeWhile (· ≠ sep)⟩ :: splitN ⟨((s.data.dropWhile (· ≠ sep)).drop 1)⟩ sep (n+1)
    else [s]

def join (elems : List String) (sep : String) : String :=
  ⟨sep.data.intercalate (elems.map String.data)⟩

theorem rdropWhile_map {α β : Type} (f : α → β) (p : β → Bool) (l : List α) :
    (l.map f).rdropWhile p = (l.rdropWhile (p ∘ f)).map f := by
  simp [List.rdropWhile,← List.map_reverse,List.dropWhile_map]

def Trimmed (l : List Char) : Prop := (l.dropWhile isSpace).rdropWhile isSpace = l

theorem dropWhile_rdropWhile_of_head {p : Char → Bool} {l : List Char}
    (h : l.dropWhile p = l) : (l.rdropWhile p).dropWhile p = l.rdropWhile p := by
  obtain ⟨t,ht⟩ := List.rdropWhile_prefix (p := p) (l := l)
  cases hr : l.rdropWhile p with
  | nil => rfl
  | cons a r =>
    rw [hr] at ht; rw [← ht] at h
    have ha : p a = false := by
      by_contra hp
      have hs := (List.dropWhile_suffix p (l := r ++ t)).length_le
      rw [List.cons_append,List.dropWhile_cons_of_pos (by simpa using hp)] at h
      rw [h,List.length_cons] at hs; omega
    exact List.dropWhile_cons_of_neg (by simp [ha])

theorem trimmed_trim (l : List Char) : Trimmed ((l.dropWhile isSpace).rdropWhile isSpace) := by
  rw [Trimmed,dropWhile_rdropWhile_of_head (List.dropWhile_idempotent _ _),
    List.rdropWhile_idempotent]

theorem trim_map {f : Char → Char} (hf : ∀ c, isSpace (f c) = isSpace c) (l : List Char) :
    ((l.map f).dropWhile isSpace).rdropWhile isSpace =
      ((l.dropWhile isSpace).rdropWhile isSpace).map f := by
  have : isSpace ∘ f = isSpace := funext hf
  rw [List.dropWhile_map,this,rdropWhile_map,this]

@[simp] theorem trimSpace_data (s : String) :
    (trimSpace s).data = (s.data.dropWhile isSpace).rdropWhile isSpace := rfl

theorem trimSpace_trimSpace (s : String) : trimSpace (trimSpace s) = trimSpace s :=
  String.ext (trimmed_trim s.data)

theorem mem_of_mem_trim {c : Char} {l : List Char}
    (h : c ∈ (l.dropWhile isSpace).rdropWhile isSpace) : c ∈ l :=
  (List.dropWhile_suffix _).subset ((List.rdropWhile_prefix _ _).subset h)

theorem trimSpace_eq_empty_iff (s : String) :
    trimSpace s = "" ↔ ∀ c ∈ s.data, isSpace c = true := by
  rw [String.ext_iff,trimSpace_data]
  show _ = [] ↔ _
  rw [List.rdropWhile_eq_nil_iff]
  constructor
  · intro h c hc
    rw [← List.takeWhile_append_dropWhile isSpace s.data,List.mem_append] at hc
    exact hc.elim List.mem_takeWhile_imp (h c)
  · exact fun h c hc => h c ((List.dropWhile_suffix _).subset hc)

theorem not_mem_of_mem_splitOn (sep : Char) :
    ∀ (s piece : List Char), piece ∈ s.splitOn sep → sep ∉ piece
  | [],piece,h => by simp_all
  | x :: xs,piece,h => by
    have ih := not_mem_of_mem_splitOn sep xs
    simp only [List.splitOn,List.splitOnP_cons] at h ih
    split_ifs at h with hx
    · rcases List.mem_cons.1 h with rfl | h
      exacts [List.not_mem_nil _,ih _ h]
    · obtain ⟨y,ys,hl⟩ := List.exists_cons_of_ne_nil (List.splitOnP_ne_nil (· == sep) xs)
      rw [hl] at h ih
      rcases List.mem_cons.1 h with rfl | h
      · simp only [List.mem_cons,not_or]
        exact ⟨fun he => hx (by simp [he]),ih y (List.mem_cons_self _ _)⟩
      · exact ih piece (List.mem_cons_of_mem _ h)

theorem not_mem_of_mem_split {s seg : String} {sep : Char} (h : seg ∈ split s sep) :
    sep ∉ seg.data := by
  obtain ⟨piece,hp,rfl⟩ := List.mem_map.1 h
  exact not_mem_of_mem_splitOn sep s.data piece hp

theorem intercalate_cons_cons {α : Type} (sep x y : List α) (zs : List (List α)) :
    sep.intercalate (x :: y :: zs) = x ++ sep ++ sep.intercalate (y :: zs) := by
  simp [List.intercalate,List.intersperse_cons_cons]

theorem intercalate_cons_head {α : Type} (sep y : List α) (c : α) (zs : List (List α)) :
    sep.intercalate ((c :: y) :: zs) = c :: sep.intercalate (y :: zs) := by
  cases zs <;> simp [List.intercalate,List.intersperse_cons_cons]

theorem intercalate_pair {α : Type} (a b : α) (x : List α) (xs : List (List α)) :
    [a,b].intercalate (x :: xs) = [a].intercalate (x :: xs.map (b :: ·)) := by
  induction xs generalizing x with
  | nil => simp [List.intercalate]
  | cons y ys ih =>
    rw [intercalate_cons_cons,ih,List.map_cons,intercalate_cons_cons,intercalate_cons_head]
    simp

theorem split_join {x : String} {xs : List String} (h : ∀ s ∈ x :: xs, ';' ∉ s.data) :
    split (join (x :: xs) "; ") ';' = x :: xs.map fun s => ⟨' ' :: s.data⟩ := by
  have hj : (join (x :: xs) "; ").data =
      [';'].intercalate (x.data :: (xs.map String.data).map (' ' :: ·)) :=
    intercalate_pair ';' ' ' _ _
  rw [split,hj,List.splitOn_intercalate]
  · simp [List.map_map,Function.comp_def]
  · intro l hl
    simp only [List.mem_cons,List.map_map,List.mem_map,Function.comp] at hl
    rcases hl with rfl | ⟨s,hs,rfl⟩
    · exact h x (List.mem_cons_self _ _)
    · simpa using h s (List.mem_cons_of_mem _ hs)
  · simp

namespace LowerCase

variable (lc : LowerCase)

theorem isSpace_toLower (c : Char) : isSpace (lc.toLower c) = isSpace c := by
  by_cases h : isSpace c = true
  · rw [lc.toLower_uncased c (.inl (by simp [uncased,h]))]
  by_cases h' : isSpace (lc.toLower c) = true
  · have := lc.toLower_uncased c (.inr (by simp [uncased,h']))
    rw [this] at h'; exact absurd h' h
  · simp_all

end LowerCase

theorem toNat_ofNat_lt {n : ℕ} (h : n < 0xD800) : (Char.ofNat n).toNat = n := by
  simp [Char.ofNat,Nat.isValidChar,h,Char.ofNatAux,Char.toNat,UInt32.toNat]

theorem char_eq_of_toNat {a b : Char} (h : a.toNat = b.toNat) : a = b := by
  rw [← Char.ofNat_toNat a,← Char.ofNat_toNat b,h]

theorem toNat_toLower (c : Char) :
    c.toLower.toNat = if 65 ≤ c.toNat ∧ c.toNat ≤ 90 then c.toNat + 32 else c.toNat := by
  simp only [Char.toLower]; split_ifs with h
  · exact toNat_ofNat_lt (by omega)
  · rfl

theorem toNat_of_uncased {c : Char} (h : uncased c = true) :
    c.toNat < 65 ∨ c.toNat = 95 ∨ 0x85 ≤ c.toNat := by
  simp only [uncased,isSpace,Bool.or_eq_true,decide_eq_true_eq] at h
  rcases h with (((h | rfl) | rfl) | rfl) | rfl
  · split at h <;> simp at h <;> omega
  all_goals decide

/-- `unicode.ToLower` on the ASCII runes; every other rune is left as it is. -/
def LowerCase.ascii : LowerCase where
  toLower := Char.toLower
  toLower_idem c := char_eq_of_toNat (by simp only [toNat_toLower]; split_ifs <;> omega)
  toLower_uncased c h := by
    apply char_eq_of_toNat
    rcases h with h | h <;> have := toNat_of_uncased h
    · rw [toNat_toLower]; split_ifs <;> omega
    · rw [toNat_toLower] at this ⊢; split_ifs at this ⊢ <;> omega

end Strings
end Ristretto
