import Mathlib.Data.List.Count
import Mathlib.Data.List.Dedup
import Mathlib.Data.List.Sublists

/-!
# Sums by exclusive or

A checksum that takes the exclusive or of the codes of a list of items forgets their order, and every item that it takes an even
number of times. `Independent` says that the codes of some items tell everything else.
-/

namespace XorSum

variable {α : Type*} {w : Nat} {f : α → BitVec w}
variable {l ts : List α} {a : α}

/-- The exclusive or of the codes of a list. -/
def xorAll (f : α → BitVec w) : List α → BitVec w
  | [] => 0#w
  | a :: l => f a ^^^ xorAll f l

@[simp] theorem xorAll_nil : xorAll f [] = 0#w := rfl

@[simp] theorem xorAll_cons (a : α) (l : List α) : xorAll f (a :: l) = f a ^^^ xorAll f l := rfl

@[simp] theorem xorAll_append (l₁ l₂ : List α) : xorAll f (l₁ ++ l₂) = xorAll f l₁ ^^^ xorAll f l₂ := by
  induction l₁ with
  | nil => simp
  | cons a l₁ ih => simp [ih, BitVec.xor_assoc]

/-- Twice the same code is none. -/
@[simp] theorem xor_cancel_left (x y : BitVec w) : x ^^^ (x ^^^ y) = y := by
  rw [← BitVec.xor_assoc, BitVec.xor_self, BitVec.zero_xor]

theorem xor_left_comm (x y z : BitVec w) : x ^^^ (y ^^^ z) = y ^^^ (x ^^^ z) := by
  rw [← BitVec.xor_assoc, BitVec.xor_comm x, BitVec.xor_assoc]

/-! ## Parities -/

variable [DecidableEq α]

/-- The item occurs an odd number of times. -/
def OddIn (l : List α) (a : α) : Prop := l.count a % 2 = 1

instance (l : List α) (a : α) : Decidable (OddIn l a) := inferInstanceAs (Decidable (_ = _))

theorem odd_cons_self : OddIn (a :: l) a ↔ ¬OddIn l a := by
  simp only [OddIn, List.count_cons_self]
  omega

theorem odd_cons_of_ne {b : α} (h : b ≠ a) : OddIn (a :: l) b ↔ OddIn l b := by
  simp [OddIn, List.count_cons_of_ne h.symm]

/-- One more of an item changes whether it is among those that occur an odd number of times. -/
theorem xorAll_filter_cons (hts : ts.Nodup) (ha : a ∈ ts) :
    xorAll f (ts.filter (fun t => OddIn (a :: l) t)) = f a ^^^ xorAll f (ts.filter fun t => OddIn l t) := by
  induction ts with
  | nil => cases ha
  | cons t ts ih =>
    rw [List.nodup_cons] at hts
    by_cases hta : t = a
    · subst hta
      have hrest : ts.filter (fun u => OddIn (t :: l) u) = ts.filter fun u => OddIn l u := by
        apply List.filter_congr
        intro u hu
        have hut : u ≠ t := fun e => hts.1 (e ▸ hu)
        simp [odd_cons_of_ne hut]
      by_cases ho : OddIn l t <;> simp [hrest, odd_cons_self, ho]
    · have ha' : a ∈ ts := by simpa [Ne.symm hta] using ha
      have ho : OddIn (a :: l) t ↔ OddIn l t := odd_cons_of_ne hta
      by_cases ht : OddIn l t
      · simp only [List.filter_cons, ho, ht, decide_true, if_true, xorAll_cons, ih hts.2 ha']
        rw [xor_left_comm]
      · simp [ho, ht, ih hts.2 ha']

/-- Only the items that occur an odd number of times count. -/
theorem xorAll_eq_filter (hts : ts.Nodup) (hl : l ⊆ ts) : xorAll f l = xorAll f (ts.filter fun t => OddIn l t) := by
  induction l with
  | nil => simp [OddIn]
  | cons a l ih =>
    rw [List.cons_subset] at hl
    rw [xorAll_cons, xorAll_filter_cons hts hl.1, ih hl.2]

theorem xorAll_congr {l₁ l₂ : List α} (h : ∀ a, OddIn l₁ a ↔ OddIn l₂ a) : xorAll f l₁ = xorAll f l₂ := by
  have hsub₁ : l₁ ⊆ (l₁ ++ l₂).dedup := fun a ha => by simp [ha]
  have hsub₂ : l₂ ⊆ (l₁ ++ l₂).dedup := fun a ha => by simp [ha]
  rw [xorAll_eq_filter (List.nodup_dedup _) hsub₁, xorAll_eq_filter (List.nodup_dedup _) hsub₂]
  simp [h]

/-! ## Independent codes -/

/-- Two lists of these items have one code only if they hold the same items, up to those that they hold an even number of times. -/
def Independent (f : α → BitVec w) (ts : List α) : Prop :=
  ∀ l₁ l₂ : List α, l₁ ⊆ ts → l₂ ⊆ ts → xorAll f l₁ = xorAll f l₂ → ∀ a, OddIn l₁ a ↔ OddIn l₂ a

/-- Among independent codes, the code of a list says which items it holds an odd number of times. -/
theorem Independent.xorAll_eq_iff {l₁ l₂ : List α} (h : Independent f ts) (h₁ : l₁ ⊆ ts) (h₂ : l₂ ⊆ ts) :
    xorAll f l₁ = xorAll f l₂ ↔ ∀ a, OddIn l₁ a ↔ OddIn l₂ a :=
  ⟨h l₁ l₂ h₁ h₂, xorAll_congr⟩

/-- Codes are independent where no choice of the items, each at most once, has the code of none. -/
theorem independent_of_sublists {us : List α} (hts : ts.Nodup) (hus : us ⊆ ts)
    (h : ∀ s ∈ ts.sublists, xorAll f s = 0#w → s = []) : Independent f us := by
  intro l₁ l₂ h₁ h₂ he a
  have hl : l₁ ++ l₂ ⊆ ts := List.append_subset.mpr ⟨List.Subset.trans h₁ hus, List.Subset.trans h₂ hus⟩
  have hz : xorAll f (ts.filter fun t => OddIn (l₁ ++ l₂) t) = 0#w := by
    rw [← xorAll_eq_filter hts hl, xorAll_append, he, BitVec.xor_self]
  have hnil := h _ (List.mem_sublists.mpr List.filter_sublist) hz
  have heven : ¬OddIn (l₁ ++ l₂) a := by
    by_cases ha : a ∈ l₁ ++ l₂
    · simpa using List.filter_eq_nil_iff.mp hnil a (hl ha)
    · simp [OddIn, List.count_eq_zero_of_not_mem ha]
  simp only [OddIn, List.count_append] at heven ⊢
  omega

end XorSum
