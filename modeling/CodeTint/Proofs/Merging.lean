import CodeTint.Markup
import Mathlib.Data.List.Chain

/-!
# Joined plain neighbours

Joining leaves no two plain fragments next to each other, and the markup does not show where a
plain fragment was put together.
-/

namespace CodeTint

namespace Fragment

/-- Two neighbours that are not both plain. -/
def Apart (first last : Fragment) : Prop :=
  ¬ (first.isPlain = true ∧ last.isPlain = true)

/-- A fragment in front of others becomes the first of them, or is joined to the first of them
when both are plain. -/
theorem mergeOnto_eq_or (fragment : Fragment) (fragments : List Fragment) :
    (fragment.mergeOnto fragments = fragment :: fragments ∧
        ∀ next ∈ fragments.head?, fragment.Apart next) ∨
      ∃ next rest, fragments = next :: rest ∧ fragment.isPlain = true ∧ next.isPlain = true ∧
        fragment.mergeOnto fragments = fragment.join next :: rest := by
  cases fragments with
  | nil => exact Or.inl ⟨rfl, fun _ hnext => absurd hnext (Option.not_mem_none _)⟩
  | cons next rest =>
    rw [mergeOnto]
    by_cases h : fragment.isPlain = true ∧ next.isPlain = true
    · rw [if_pos (by rw [h.1, h.2]; rfl)]
      exact Or.inr ⟨next, rest, rfl, h.1, h.2, rfl⟩
    · rw [if_neg (by rwa [Bool.and_eq_true])]
      refine Or.inl ⟨rfl, fun other hother => ?_⟩
      rw [List.head?_cons, Option.mem_some_iff] at hother
      rw [← hother]
      exact h

/-- Joining in front keeps plain neighbours away. -/
theorem isChain_mergeOnto (fragment : Fragment) {fragments : List Fragment}
    (h : fragments.IsChain Apart) : (fragment.mergeOnto fragments).IsChain Apart := by
  rcases mergeOnto_eq_or fragment fragments with
    ⟨heq, hapart⟩ | ⟨next, rest, rfl, -, hnext, heq⟩
  · rw [heq]
    exact h.cons hapart
  · -- the joined fragment is plain as the one it replaces
    rw [heq]
    cases rest with
    | nil => exact List.isChain_singleton _
    | cons other rest =>
      rw [List.isChain_cons_cons] at h ⊢
      exact ⟨fun hboth => h.1 ⟨hnext, hboth.2⟩, h.2⟩

/-- No two plain neighbours are left. -/
theorem isChain_mergePlain (fragments : List Fragment) :
    (mergePlain fragments).IsChain Apart := by
  induction fragments with
  | nil => exact List.isChain_nil
  | cons fragment fragments ih => exact isChain_mergeOnto fragment ih

/-- A classified fragment keeps what stands behind it apart from what is put in front. -/
theorem mergeOnto_append_cons (fragment : Fragment) (front : List Fragment) {middle : Fragment}
    (hmiddle : middle.isPlain = false) (behind : List Fragment) :
    fragment.mergeOnto (front ++ middle :: behind) =
      fragment.mergeOnto front ++ middle :: behind := by
  cases front with
  | nil =>
    have hboth : (fragment.isPlain && middle.isPlain) = false := by
      rw [hmiddle, Bool.and_false]
    rw [List.nil_append, mergeOnto, mergeOnto, if_neg (Bool.eq_false_iff.mp hboth)]
    rfl
  | cons next front =>
    rw [List.cons_append, mergeOnto, mergeOnto]
    split <;> rfl

/-- A classified fragment stays as it is, and what stands on its two sides is joined apart. -/
theorem mergePlain_append_cons (front : List Fragment) {middle : Fragment}
    (hmiddle : middle.isPlain = false) (behind : List Fragment) :
    mergePlain (front ++ middle :: behind) =
      mergePlain front ++ middle :: mergePlain behind := by
  induction front with
  | nil =>
    rw [List.nil_append, mergePlain, List.foldr_cons, ← mergePlain]
    rcases mergeOnto_eq_or middle (mergePlain behind) with ⟨heq, -⟩ | ⟨_, _, _, hplain, -, -⟩
    · exact heq
    · exact absurd (hmiddle.symm.trans hplain) Bool.false_ne_true
  | cons fragment front ih =>
    rw [List.cons_append, mergePlain, List.foldr_cons, ← mergePlain, ih,
      mergeOnto_append_cons fragment _ hmiddle]
    rfl

end Fragment

namespace Markup

/-- A plain fragment is written bare. -/
theorem renderFragment_of_isPlain (config : Config) {fragment : Fragment}
    (h : fragment.isPlain = true) : renderFragment config fragment = escape fragment.text := by
  rw [renderFragment, (Category.className?_eq_none_iff _).mpr h]

/-- Joining in front does not show in the markup. -/
theorem render_mergeOnto (config : Config) (fragment : Fragment) (fragments : List Fragment) :
    render config (fragment.mergeOnto fragments) =
      renderFragment config fragment ++ render config fragments := by
  rcases Fragment.mergeOnto_eq_or fragment fragments with
    ⟨heq, -⟩ | ⟨next, rest, rfl, hplain, hnext, heq⟩
  · rw [heq]
    exact List.flatMap_cons
  · have hjoin : (fragment.join next).isPlain = true := hplain
    rw [heq, render, render, List.flatMap_cons, List.flatMap_cons,
      renderFragment_of_isPlain config hjoin, renderFragment_of_isPlain config hplain,
      renderFragment_of_isPlain config hnext, Fragment.join, escape_append, List.append_assoc]

/-- The markup is the same before and after joining. -/
theorem render_mergePlain (config : Config) (fragments : List Fragment) :
    render config (Fragment.mergePlain fragments) = render config fragments := by
  induction fragments with
  | nil => rfl
  | cons fragment fragments ih =>
    rw [Fragment.mergePlain, List.foldr_cons, render_mergeOnto, ← Fragment.mergePlain, ih]
    exact List.flatMap_cons.symm

end Markup

end CodeTint
