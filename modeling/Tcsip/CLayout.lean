/-
# The layout of a C structure

The fields of a structure lie one after the other, each at the next offset that its alignment
admits.  Memory is read and written through a layout, and nothing keeps a program from
reading through another layout than the one it wrote through: what it finds is decided by the
offsets alone.

Sizes and alignments are multiples of four here, and memory is a row of 32-bit words.
-/
import Mathlib

namespace CLayout

variable {φ ψ : Type*} [DecidableEq φ] [DecidableEq ψ]

/-- A type: its size and its alignment, in bytes. -/
structure CType where
  size : ℕ
  align : ℕ
  deriving DecidableEq

/-- `int`, and an enumeration. -/
def CType.int : CType := ⟨4, 4⟩

/-- The fields of a structure, in order. -/
abbrev Layout (φ : Type*) := List (φ × CType)

/-- The next multiple of `a`. -/
def roundUp (o a : ℕ) : ℕ := (o + (a - 1)) / a * a

/-- The fields from the offset `o` on: where each begins, and its size. -/
def place : ℕ → Layout φ → List (φ × ℕ × ℕ)
  | _, [] => []
  | o, (f, ty) :: fields =>
    (f, roundUp o ty.align, ty.size) :: place (roundUp o ty.align + ty.size) fields

/-- Where a field begins, and its size. -/
def field (l : Layout φ) (f : φ) : Option (ℕ × ℕ) := (place 0 l).lookup f

/-- The largest alignment of the fields. -/
def alignment (l : Layout φ) : ℕ := (l.map fun p => p.2.align).foldr max 1

/-- The end of the last field. -/
def extent (l : Layout φ) : ℕ := ((place 0 l).map fun p => p.2.1 + p.2.2).foldr max 0

/-- The structure as a type. -/
def structType (l : Layout φ) : CType := ⟨roundUp (extent l) (alignment l), alignment l⟩

/-! ## Memory -/

/-- The memory of a structure: the word at each offset. -/
abbrev Words := ℕ → ℤ

/-- The word at the beginning of a field. -/
def load (l : Layout φ) (f : φ) (mem : Words) : Option ℤ := (field l f).map fun p => mem p.1

/-- Write a field.  `content` gives the word at each offset. -/
def store (l : Layout φ) (f : φ) (content : Words) (mem : Words) : Words :=
  match field l f with
  | none => mem
  | some (o, size) => fun i => if o ≤ i ∧ i < o + size then content i else mem i

/-- The field `f` of one layout begins outside the field `g` of the other. -/
def Apart (l : Layout φ) (f : φ) (l' : Layout ψ) (g : ψ) : Prop :=
  ∀ p ∈ field l f, ∀ q ∈ field l' g, p.1 < q.1 ∨ q.1 + q.2 ≤ p.1

instance (l : Layout φ) (f : φ) (l' : Layout ψ) (g : ψ) : Decidable (Apart l f l' g) :=
  inferInstanceAs (Decidable (∀ p ∈ field l f, ∀ q ∈ field l' g, p.1 < q.1 ∨ q.1 + q.2 ≤ p.1))

/-- A field written elsewhere is not seen. -/
theorem load_store_of_apart {l : Layout φ} {f : φ} {l' : Layout ψ} {g : ψ}
    (h : Apart l f l' g) (content mem : Words) :
    load l f (store l' g content mem) = load l f mem := by
  unfold load store
  cases hf : field l f with
  | none => rfl
  | some p =>
      cases hg : field l' g with
      | none => rfl
      | some q =>
          have hpq := h p hf q hg
          simp only [Option.map_some, Option.some.injEq, ite_eq_right_iff, and_imp]
          intro hle hlt
          omega

/-- A field written at the same place is what is read. -/
theorem load_store_of_eq {l : Layout φ} {f : φ} {l' : Layout ψ} {g : ψ} {o size : ℕ}
    (hf : field l f = some (o, size)) (hg : field l' g = some (o, size)) (hsize : 0 < size)
    (content mem : Words) : load l f (store l' g content mem) = some (content o) := by
  unfold load store
  rw [hf, hg]
  simp [hsize]

end CLayout
