import Mathlib.Data.List.Basic
import Mathlib.Data.Set.Basic
import Mathlib.Tactic.Common

/-! # Recency by stamps

Things are referenced one after another, and each carries the stamp of its last reference.  As long
as every new stamp is greater than all before it, of two things that were referenced the one
with the smaller stamp was referenced last earlier: the least stamp finds the least recently used.
-/
namespace PaldOs

variable {ι : Type}

/-- **Everything else in `among` was referenced since the last reference to `f`.** -/
def LeastRecent (among : Set ι) (references : List ι) (f : ι) : Prop :=
  ∃ before after, references = before ++ f :: after ∧ f ∉ after ∧
    ∀ g, g ∈ among → g ≠ f → g ∈ after

/-- The stamps tell the order of the last references, and none is greater than `now`. -/
structure Recency (references : List ι) (stamp : ι → ℕ) (now : ℕ) : Prop where
  le : ∀ f, stamp f ≤ now
  last : ∀ f, f ∈ references → ∃ before after, references = before ++ f :: after ∧ f ∉ after ∧
    ∀ g, g ∈ after → stamp f < stamp g

namespace Recency
variable {references : List ι} {stamp : ι → ℕ} {now next : ℕ} {f g : ι} {among : Set ι}

theorem nil (now : ℕ) : Recency ([] : List ι) (fun _ => 0) now :=
  ⟨fun _ => Nat.zero_le now, fun _ hf => absurd hf List.not_mem_nil⟩

/-- Time goes by. -/
theorem later (h : Recency references stamp now) (hle : now ≤ next) :
    Recency references stamp next :=
  ⟨fun f => le_trans (h.le f) hle, h.last⟩

/-- **A reference**, with a stamp that is new. -/
theorem refer [DecidableEq ι] (h : Recency references stamp now) (hlt : now < next) (f : ι) :
    Recency (references ++ [f]) (Function.update stamp f next) next where
  le g := by
    by_cases hg : g = f
    · rw [hg, Function.update_self]
    · rw [Function.update_of_ne hg]
      exact le_of_lt (lt_of_le_of_lt (h.le g) hlt)
  last g hg := by
    by_cases hgf : g = f
    · subst hgf
      exact ⟨references, [], rfl, List.not_mem_nil, fun _ hx => absurd hx List.not_mem_nil⟩
    · have hmem : g ∈ references := by simpa [hgf] using hg
      obtain ⟨before, after, heq, hnot, hless⟩ := h.last g hmem
      refine ⟨before, after ++ [f], by rw [heq]; simp, by simp [hnot, hgf], ?_⟩
      intro x hx
      rw [Function.update_of_ne hgf]
      by_cases hxf : x = f
      · rw [hxf, Function.update_self]
        exact lt_of_le_of_lt (h.le g) hlt
      · rw [Function.update_of_ne hxf]
        apply hless
        simpa [hxf] using hx

/-- What was last referenced before `f` has the smaller stamp. -/
theorem since (h : Recency references stamp now) (hle : stamp f ≤ stamp g)
    (hg : g ∈ references) (hne : g ≠ f) {before after : List ι}
    (heq : references = before ++ f :: after) : g ∈ after := by
  obtain ⟨before', after', heq', -, hless⟩ := h.last g hg
  by_contra hnot
  rw [heq] at heq'
  rcases List.append_eq_append_iff.mp heq' with ⟨mid, -, hmid⟩ | ⟨mid, -, hmid⟩
  · -- the last `g` would stand after `f`
    have hin : g ∈ f :: after := by
      rw [hmid]
      simp
    rcases List.mem_cons.mp hin with h | h
    · exact hne h
    · exact hnot h
  · have hin : f ∈ g :: after' := by
      rw [hmid]
      simp
    rcases List.mem_cons.mp hin with h | h
    · exact hne h.symm
    · exact absurd (hless f h) (not_lt.mpr hle)

/-- **The least stamp finds the least recently used.** -/
theorem leastRecent (h : Recency references stamp now) (hall : ∀ g, g ∈ among → g ∈ references)
    (hf : f ∈ among) (hmin : ∀ g, g ∈ among → stamp f ≤ stamp g) :
    LeastRecent among references f := by
  obtain ⟨before, after, heq, hnot, -⟩ := h.last f (hall f hf)
  refine ⟨before, after, heq, hnot, ?_⟩
  intro g hg hne
  exact h.since (hmin g hg) (hall g hg) hne heq

end Recency

/-- The thing referenced last is not the least recently used one, if there are others. -/
theorem not_leastRecent_last {among : Set ι} {references : List ι} {f g : ι} (hg : g ∈ among)
    (hne : g ≠ f) : ¬ LeastRecent among (references ++ [f]) f := by
  rintro ⟨before, after, heq, hnot, hall⟩
  rcases List.eq_nil_or_concat after with rfl | ⟨init, x, rfl⟩
  · exact absurd (hall g hg hne) List.not_mem_nil
  · have hlast : f = x := by
      have h : references ++ [f] = (before ++ f :: init) ++ [x] := by
        rw [heq]
        simp
      simpa using (List.append_inj' h rfl).2
    rw [hlast] at hnot
    exact hnot (by simp)

end PaldOs
