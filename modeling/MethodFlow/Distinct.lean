/-!
# Lists in order of first appearance

`appendNew` adds a value at the end of a list unless the list holds it already, so a list grown by
it alone repeats nothing and keeps the order in which its members first came.
-/

namespace MethodFlow

variable {α : Type} [BEq α]

/-- `xs` with `x` at its end, unless `x` is in `xs`. -/
def appendNew (xs : List α) (x : α) : List α :=
  if xs.contains x then xs else xs ++ [x]

/-- `xs` with the members of `ys` added one after the other. -/
def appendAllNew (xs ys : List α) : List α := ys.foldl appendNew xs

/-- The members of a list, each once. -/
def distinct (xs : List α) : List α := appendAllNew [] xs

variable [LawfulBEq α]

theorem mem_appendNew {xs : List α} {x y : α} : y ∈ appendNew xs x ↔ y ∈ xs ∨ y = x := by
  unfold appendNew
  split
  · rename_i h
    have hx : x ∈ xs := List.contains_iff_mem.mp h
    constructor
    · exact Or.inl
    · rintro (h | rfl)
      · exact h
      · exact hx
  · simp

theorem nodup_appendNew {xs : List α} {x : α} (h : xs.Nodup) : (appendNew xs x).Nodup := by
  unfold appendNew
  split
  · exact h
  · rename_i hx
    have hx : x ∉ xs := fun hm => hx (List.contains_iff_mem.mpr hm)
    rw [List.nodup_append]
    refine ⟨h, by simp, ?_⟩
    intro a ha b hb hab
    rw [List.mem_singleton] at hb
    exact hx (hb ▸ hab ▸ ha)

theorem mem_appendAllNew {xs ys : List α} {y : α} : y ∈ appendAllNew xs ys ↔ y ∈ xs ∨ y ∈ ys := by
  unfold appendAllNew
  induction ys generalizing xs with
  | nil => simp
  | cons z ys ih => rw [List.foldl_cons, ih, mem_appendNew, List.mem_cons, or_assoc]

theorem nodup_appendAllNew {xs ys : List α} (h : xs.Nodup) : (appendAllNew xs ys).Nodup := by
  unfold appendAllNew
  induction ys generalizing xs with
  | nil => exact h
  | cons z ys ih => exact ih (nodup_appendNew h)

end MethodFlow
