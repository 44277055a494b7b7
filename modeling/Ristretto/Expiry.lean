import Ristretto.Ttl

/-! When `CleanUp` detaches an entry, measured against its expiration, with the code's bucket
function `timeToBucket`, the second within the minute divided by `bucketSizeSecs`. `CleanUp` reports
only entries an `Add` put in the bucket one behind the clock. Within a minute those have expired,
but across the turn of the minute an entry that expires almost a minute later shares the bucket
number; and the last bucket of a minute is never the one behind the clock, so it is never swept.
Every other bucket is swept within two bucket widths. -/

namespace Ristretto
namespace Ttl

variable {V P : Type} (pol : CostPolicy P) (p : P) (onEvict : Bool)

section
variable (toBucket : ℤ → ℤ)

theorem mem_bucket_run (s : State V) (evs : List (ℤ × Event)) (b : ℤ) (k : UInt64)
    (hk : k ∈ s.map.buckets b) (hd : ∀ t e, (t,Event.delete k e) ∉ evs)
    (hc : ∀ t, (t,Event.cleanUp) ∈ evs → toBucket t - 1 ≠ b) :
    k ∈ (run toBucket pol p onEvict s evs).map.buckets b := by
  induction evs generalizing s with
  | nil => exact hk
  | cons x evs ih =>
    obtain ⟨now,ev⟩ := x
    refine ih _ ?_ (fun t e h => hd t e (.tail _ h)) (fun t h => hc t (.tail _ h))
    rcases step_buckets toBucket pol p onEvict s now b ev with hb | ⟨k',c',e,-,-,-,hb⟩ |
      ⟨k',e,rfl,hb⟩ | ⟨rfl,hnow,-⟩ <;> (try rw [hb])
    · exact hk
    · exact Finmap.mem_insert.2 (.inr hk)
    · have hne : k ≠ k' := by rintro rfl; exact hd now e (.head _)
      exact Finmap.mem_erase.2 ⟨hne,hk⟩
    · exact absurd hnow (hc now (.head _))

end

theorem timeToBucket_add_55 (now : ℤ) (hs : 5 ≤ second now) :
    timeToBucket (now + 55000000000) = timeToBucket now - 1 := by
  simp only [timeToBucket,second,bucketSizeSecs] at hs ⊢; omega

/-- At every clock reading at least five seconds into its minute, `CleanUp` reports to a set
`onEvict` an entry whose only `Add` set its expiration 55 s after the clock. -/
theorem cleanUp_reports_unexpired (st : Store V) (now : ℤ) (h0 : 0 ≤ now) (hs : 5 ≤ second now)
    (k c : UInt64) :
    ∃ ev ∈ (step timeToBucket pol p true (run timeToBucket pol p true ⟨newExpirationMap,st⟩
      [(now,.add k c (now + 55000000000))]) now .cleanUp).2, ev.key = k ∧ ev.conflict = c := by
  have hz : ¬now + 55000000000 = 0 := by omega
  rw [step,ExpirationMap.mem_cleanUp_evictions,← timeToBucket_add_55 now hs]
  simp [step,isZero,hz]

theorem cleanUp_reports_unexpired_67 :
    0 ≤ (67000000000 : ℤ) ∧ 5 ≤ second 67000000000 ∧
      ∃ ev ∈ (step timeToBucket ⟨fun _ _ => 0,fun _ => ∅⟩ () true (run timeToBucket
        ⟨fun _ _ => 0,fun _ => ∅⟩ () true ⟨newExpirationMap,(∅ : Store ℕ)⟩
          [(67000000000,.add 1 7 (67000000000 + 55000000000))]) 67000000000 .cleanUp).2,
        ev.key = 1 ∧ ev.conflict = 7 :=
  ⟨by decide,by decide,cleanUp_reports_unexpired _ () _ 67000000000 (by decide) (by decide) 1 7⟩

theorem timeToBucket_behind_ne_last (now : ℤ) : timeToBucket now - 1 ≠ 11 := by
  simp only [timeToBucket,second,bucketSizeSecs]; omega

/-- An entry whose expiration lies in the last five seconds of its minute goes to bucket 11, which no
`CleanUp` detaches: it stays in the map through every later call but a `Delete` of its key. -/
theorem add_last_bucket_never_swept (s : State V) (t e : ℤ) (k c : UInt64) (he : e ≠ 0)
    (hsec : 55 ≤ second e) (evs : List (ℤ × Event)) (hd : ∀ t e, (t,Event.delete k e) ∉ evs) :
    timeToBucket e = 11 ∧
      k ∈ (run timeToBucket pol p onEvict s ((t,.add k c e) :: evs)).map.buckets
        (timeToBucket e) := by
  have h11 : timeToBucket e = 11 := by
    simp only [timeToBucket,second,bucketSizeSecs] at hsec ⊢; omega
  refine ⟨h11,mem_bucket_run pol p onEvict _ _ evs _ k ?_ hd
    fun t _ => h11 ▸ timeToBucket_behind_ne_last t⟩
  simp [step,isZero,he]

theorem add_last_bucket_never_swept_57 :
    (57000000000 : ℤ) ≠ 0 ∧ 55 ≤ second 57000000000 ∧ timeToBucket 57000000000 = 11 ∧
      1 ∈ (run timeToBucket ⟨fun _ _ => 0,fun _ => ∅⟩ () true ⟨newExpirationMap,(∅ : Store ℕ)⟩
        [(56000000000,.add 1 7 57000000000),(56000000000,.cleanUp),(60000000000,.cleanUp),
          (65000000000,.cleanUp)]).map.buckets (timeToBucket 57000000000) :=
  ⟨by decide,by decide,add_last_bucket_never_swept _ () true _ 56000000000 57000000000 1 7
    (by decide) (by decide) _ (by simp)⟩

/-- The width of a bucket, `bucketSizeSecs`, in nanoseconds. -/
def bucketWidth : ℤ := bucketSizeSecs * 1000000000

/-- With `timeToBucket`, in a run from a new map whose clock never goes back and with a `CleanUp`
inside every bucket window from `start` up to `now`, the bucket of every instant `e ≥ start` outside
the last five seconds of its minute is swept by `e + 2 * bucketWidth`: a key it still holds was
filed there again by an `Add` made after `e`. -/
theorem timeToBucket_swept (st : Store V) (evs : List (ℤ × Event)) (start now : ℤ)
    (hclock : evs.Pairwise fun a b => a.1 ≤ b.1)
    (hclean : ∀ j : ℤ, start ≤ bucketWidth * j → bucketWidth * (j + 1) ≤ now →
      ∃ t, (t,Event.cleanUp) ∈ evs ∧ bucketWidth * j ≤ t ∧ t < bucketWidth * (j + 1))
    (e : ℤ) (he : start ≤ e) (hsec : second e < 55) (hlate : e + 2 * bucketWidth ≤ now) (k : UInt64)
    (hk : k ∈ (run timeToBucket pol p onEvict ⟨newExpirationMap,st⟩ evs).map.buckets
      (timeToBucket e)) :
    ∃ t c e', (t,Event.add k c e') ∈ evs ∧ e < t ∧ timeToBucket e' = timeToBucket e := by
  obtain ⟨c,hc⟩ := Finmap.mem_iff.1 hk
  obtain ⟨pre,t,e',post,rfl,-,heb,hpost⟩ :=
    exists_last_add_of_lookup timeToBucket pol p onEvict st evs _ k c hc
  obtain ⟨tc,hmem,hlo,hhi⟩ := hclean (e / bucketWidth + 1)
    (by simp only [bucketWidth,bucketSizeSecs]; omega)
    (by simp only [bucketWidth,bucketSizeSecs] at hlate ⊢; omega)
  have hbc : timeToBucket tc - 1 = timeToBucket e := by
    simp only [timeToBucket,second,bucketWidth,bucketSizeSecs] at hsec hlo hhi ⊢; omega
  -- the sweeping `CleanUp` touches `k` of the bucket, so it comes before the last `Add` of `k`
  have hpre : (tc,Event.cleanUp) ∈ pre := by
    rcases List.mem_append.1 hmem with h | h
    · exact h
    · rcases List.mem_cons.1 h with h | h
      · cases h
      · simpa [effect,hbc] using hpost _ h
  have htc : tc ≤ t := (List.pairwise_append.1 hclock).2.2 _ hpre _ (.head _)
  refine ⟨t,c,e',List.mem_append_right _ (.head _),?_,heb⟩
  simp only [bucketWidth,bucketSizeSecs] at hlo; omega

theorem timeToBucket_swept_readded :
    ∃ t c e', (t,Event.add 1 c e') ∈ [((0 : ℤ),Event.add 1 7 2000000000),(1000000000,.cleanUp),
      (5000000000,.cleanUp),(6000000000,.add 1 8 62000000000)] ∧ 2000000000 < t ∧
        timeToBucket e' = timeToBucket 2000000000 :=
  timeToBucket_swept ⟨fun _ _ => 0,fun _ => ∅⟩ () true (∅ : Store ℕ) _ 0 12000000000 (by decide)
    (fun j h1 h2 => by
      obtain rfl | rfl : j = 0 ∨ j = 1 := by
        simp only [bucketWidth,bucketSizeSecs] at h1 h2; omega
      exacts [⟨1000000000,by simp,by decide,by decide⟩,⟨5000000000,by simp,by decide,by decide⟩])
    2000000000 (by decide) (by decide) (by decide) 1 (by decide)

end Ttl
end Ristretto
