import Mathlib.Data.Char
import Mathlib.Data.Set.Card
import AbnfPatterns.CharSet

/-!
# The runs and the members of a set of characters

The runs that a set keeps are the maximal runs of its characters.
-/

namespace AbnfPatterns

namespace CharRun

variable {c : Char} {r t : CharRun}

/-! ### The members of a run -/

/-- Between the ends of a run there are only code points of characters. -/
theorem toNat_ofNat {n : Nat} (hfirst : r.first.toNat ≤ n) (hlast : n ≤ r.last.toNat) :
    (Char.ofNat n).toNat = n := by
  have hvalid : n.isValidChar := by
    have hgap := r.contiguous
    have hend : r.last.toNat.isValidChar := r.last.valid
    simp only [Nat.isValidChar] at *
    omega
  rw [Char.ofNat, dif_pos hvalid]
  rfl

theorem exists_mem {n : Nat} (hfirst : r.first.toNat ≤ n) (hlast : n ≤ r.last.toNat) :
    ∃ c ∈ r, c.toNat = n := by
  have hcode : (Char.ofNat n).toNat = n := toNat_ofNat hfirst hlast
  refine ⟨Char.ofNat n, ?_, hcode⟩
  rw [mem_def, hcode]
  exact ⟨hfirst, hlast⟩

theorem map_toNat_members (r : CharRun) :
    r.members.map Char.toNat = List.range' r.first.toNat r.size := by
  have hlen := r.first_le_last
  rw [members, List.map_map]
  refine (List.map_congr_left fun n hn => ?_).trans (List.map_id _)
  rw [List.mem_range'_1, size] at hn
  exact toNat_ofNat hn.1 (by omega)

theorem mem_members : c ∈ r.members ↔ c ∈ r := by
  have hlen := r.first_le_last
  have hinj : Function.Injective Char.toNat := fun _ _ => Char.toNat_inj.1
  rw [← List.mem_map_of_injective hinj, map_toNat_members, List.mem_range'_1, mem_def, size]
  omega

theorem length_members (r : CharRun) : r.members.length = r.size := by
  rw [members, List.length_map, List.length_range']

theorem pairwise_members (r : CharRun) : r.members.Pairwise (· < ·) := by
  have h : (r.members.map Char.toNat).Pairwise (· < ·) := by
    rw [map_toNat_members]
    exact List.pairwise_lt_range' 1
  rwa [List.pairwise_map] at h

/-! ### Runs that lie apart -/

theorem Before.asymm (h : r.Before t) : ¬ t.Before r := by
  have := r.first_le_last
  have := t.first_le_last
  simp only [Before] at *
  omega

theorem Before.lt (h : r.Before t) {d : Char} (hc : c ∈ r) (hd : d ∈ t) : c < d := by
  have hlt : c.toNat < d.toNat := by
    simp only [Before, mem_def] at *
    omega
  exact hlt

/-! ### Maximal runs -/

/-- **A maximal run of a class of characters**: all of it is in the class, and neither the
character in front of it nor the one behind it is. -/
structure IsMaximalIn (p : Char → Prop) (r : CharRun) : Prop where
  within : ∀ c ∈ r, p c
  starts : ∀ c, p c → c.toNat + 1 ≠ r.first.toNat
  ends : ∀ c, p c → c.toNat ≠ r.last.toNat + 1

variable {p : Char → Prop}

/-- A maximal run reaches as far as any run of the class that it shares a character with. -/
theorem IsMaximalIn.reaches (hr : r.IsMaximalIn p) (ht : ∀ d ∈ t, p d) (hcr : c ∈ r)
    (hct : c ∈ t) : r.first.toNat ≤ t.first.toNat ∧ t.last.toNat ≤ r.last.toNat := by
  rw [mem_def] at hcr hct
  constructor
  · by_contra hlt
    obtain ⟨d, hd, hcode⟩ := t.exists_mem (n := r.first.toNat - 1) (by omega) (by omega)
    exact hr.starts d (ht d hd) (by omega)
  · by_contra hlt
    obtain ⟨d, hd, hcode⟩ := t.exists_mem (n := r.last.toNat + 1) (by omega) (by omega)
    exact hr.ends d (ht d hd) hcode

/-- Maximal runs of one class that share a character are the same. -/
theorem IsMaximalIn.eq_of_mem (hr : r.IsMaximalIn p) (ht : t.IsMaximalIn p) (hcr : c ∈ r)
    (hct : c ∈ t) : r = t := by
  obtain ⟨hfirst, hlast⟩ := hr.reaches ht.within hcr hct
  obtain ⟨hfirst', hlast'⟩ := ht.reaches hr.within hct hcr
  obtain ⟨first, last, _, _⟩ := r
  obtain ⟨first', last', _, _⟩ := t
  obtain rfl := Char.toNat_inj.1 (Nat.le_antisymm hfirst hfirst')
  obtain rfl := Char.toNat_inj.1 (Nat.le_antisymm hlast' hlast)
  rfl

end CharRun

namespace CharSet

variable {c : Char} {r t : CharRun} {s : CharSet}

/-! ### The members of a set -/

@[simp] theorem mem_members : c ∈ s.members ↔ c ∈ s := by
  simp only [members, List.mem_flatMap, CharRun.mem_members, mem_def]

/-- **The members are listed in ascending order**, each of them once. -/
theorem pairwise_members (s : CharSet) : s.members.Pairwise (· < ·) := by
  refine List.pairwise_flatMap.2 ⟨fun r _ => r.pairwise_members, s.apart.imp ?_⟩
  intro r t h c hc d hd
  exact h.lt (CharRun.mem_members.1 hc) (CharRun.mem_members.1 hd)

theorem length_members (s : CharSet) : s.members.length = s.size := by
  have h : ∀ runs : List CharRun,
      (runs.flatMap CharRun.members).length = runs.foldr (fun r n => r.size + n) 0 := by
    intro runs
    induction runs with
    | nil => rfl
    | cons r rest ih =>
      rw [List.flatMap_cons, List.length_append, CharRun.length_members, ih, List.foldr_cons]
  exact h s.runs

/-- **The size of a set is the number of its characters.** -/
theorem encard_eq_size (s : CharSet) : {c | c ∈ s}.encard = s.size := by
  have hnodup : s.members.Nodup := s.pairwise_members.imp ne_of_lt
  have hset : {c | c ∈ s} = (s.members.toFinset : Set Char) := by
    rw [List.coe_toFinset]
    exact Set.ext fun c => mem_members.symm
  rw [hset, Set.encard_coe_eq_coe_finsetCard, List.toFinset_card_of_nodup hnodup, length_members]

/-! ### The runs of a set -/

/-- Two runs of a set are the same, or one lies before the other. -/
theorem eq_or_before (hr : r ∈ s.runs) (ht : t ∈ s.runs) : r = t ∨ r.Before t ∨ t.Before r := by
  obtain ⟨i, hi, rfl⟩ := List.mem_iff_getElem.1 hr
  obtain ⟨j, hj, rfl⟩ := List.mem_iff_getElem.1 ht
  have hbefore := List.pairwise_iff_getElem.1 s.apart
  rcases Nat.lt_trichotomy i j with hij | rfl | hij
  · exact .inr (.inl (hbefore i j hi hj hij))
  · exact .inl rfl
  · exact .inr (.inr (hbefore j i hj hi hij))

/-- **Each run of a set is maximal**: no other run of the set reaches up to it. -/
theorem isMaximalIn_of_mem (hr : r ∈ s.runs) : r.IsMaximalIn (· ∈ s) := by
  have happart : ∀ c ∈ s, c.toNat + 1 ≠ r.first.toNat ∧ c.toNat ≠ r.last.toNat + 1 := by
    rintro c ⟨t, ht, hc⟩
    have hlen := r.first_le_last
    rw [CharRun.mem_def] at hc
    rcases eq_or_before hr ht with rfl | h | h
    · omega
    · rw [CharRun.Before] at h
      omega
    · rw [CharRun.Before] at h
      omega
  exact ⟨fun c hc => ⟨r, hr, hc⟩, fun c hc => (happart c hc).1, fun c hc => (happart c hc).2⟩

/-- **The runs of a set are its maximal runs.** -/
theorem mem_runs_iff : r ∈ s.runs ↔ r.IsMaximalIn (· ∈ s) := by
  constructor
  · exact isMaximalIn_of_mem
  · intro hr
    have hfirst : r.first ∈ r := ⟨Nat.le_refl _, r.first_le_last⟩
    obtain ⟨t, ht, hmem⟩ := hr.within r.first hfirst
    rw [hr.eq_of_mem (isMaximalIn_of_mem ht) hfirst hmem]
    exact ht

theorem nodup_runs (s : CharSet) : s.runs.Nodup := by
  refine s.apart.imp ?_
  rintro r t h rfl
  exact h.asymm h

/-- **A set is given by its characters**, however it was built. -/
@[ext] theorem ext {s t : CharSet} (h : ∀ c, c ∈ s ↔ c ∈ t) : s = t := by
  have hclass : (· ∈ s) = (· ∈ t) := funext fun c => propext (h c)
  have hperm : s.runs.Perm t.runs := by
    refine (List.perm_ext_iff_of_nodup s.nodup_runs t.nodup_runs).2 fun r => ?_
    rw [mem_runs_iff, mem_runs_iff, hclass]
  have hruns : s.runs = t.runs :=
    hperm.eq_of_pairwise (fun _ _ _ _ hrt htr => absurd htr hrt.asymm) s.apart t.apart
  rw [← bounds_inj, bounds, bounds, hruns]

end CharSet

end AbnfPatterns
