import Mathlib.Data.List.Lex
import Mathlib.Order.Basic

/-!
# Byte strings and their order

Go's `[]byte` is `Bytes`, ordered lexicographically with a proper prefix first, the order of the backend
(`bytes.Compare`).  Go code that can panic returns `Except GoError`, so a panic is a value of the model.  The facts
here are those the prefix arithmetic needs (`append_lt_append_iff`, `le_append`, `append_lt_of_not_isPrefix`).
-/

namespace BurrowState

instance byteLinearOrder : LinearOrder UInt8 where
  le_refl a := Nat.le_refl a.toNat
  le_trans _ _ _ := Nat.le_trans
  le_antisymm _ _ h₁ h₂ := UInt8.toNat.inj (Nat.le_antisymm h₁ h₂)
  le_total a b := Nat.le_total a.toNat b.toNat
  lt_iff_le_not_le _ _ := Nat.lt_iff_le_not_le
  decidableLE := inferInstance

theorem byte_lt_iff {a b : UInt8} : a < b ↔ a.toNat < b.toNat := Iff.rfl

private theorem byte_le_ff (b : UInt8) : b ≤ 0xff := by
  show b.toNat ≤ 255
  have := UInt8.toNat_lt_size b
  simp only [UInt8.size] at this
  omega

theorem byte_not_lt_ff_iff (b : UInt8) : ¬ b < 0xff ↔ b = 0xff := by
  rw [not_lt]
  exact (byte_le_ff b).ge_iff_eq

/-- Go's `[]byte`. -/
abbrev Bytes := List UInt8

/-- How Go code ends other than by returning: an error value, or a panic. -/
inductive GoError where
  | error (msg : String)
  | panic (msg : String)
  deriving DecidableEq, Repr

section Except

variable {α β : Type}

@[simp] theorem except_ok_bind (a : α) (f : α → Except GoError β) : (Except.ok a >>= f) = f a := rfl

@[simp] theorem except_error_bind (e : GoError) (f : α → Except GoError β) :
    (Except.error e >>= f) = Except.error e := rfl

@[simp] theorem except_pure (a : α) : (pure a : Except GoError α) = .ok a := rfl

@[simp] theorem except_map_ok (f : α → β) (a : α) : (f <$> (Except.ok a : Except GoError α)) = .ok (f a) := rfl

@[simp] theorem except_mapError_ok (f : GoError → GoError) (a : α) :
    (Except.ok a : Except GoError α).mapError f = .ok a := rfl

theorem except_bind_eq_ok {x : Except GoError α} {f : α → Except GoError β} {b : β} :
    (x >>= f) = .ok b ↔ ∃ a, x = .ok a ∧ f a = .ok b := by
  cases x <;> simp

@[simp] theorem except_mapError_eq_ok {x : Except GoError α} {f : GoError → GoError} {a : α} :
    x.mapError f = .ok a ↔ x = .ok a := by
  cases x <;> simp [Except.mapError]

end Except

namespace Bytes

theorem cons_lt_cons_iff {a b : UInt8} {l l' : Bytes} : a :: l < b :: l' ↔ a < b ∨ a = b ∧ l < l' := by
  constructor
  · intro h
    cases h with
    | cons h => exact .inr ⟨rfl, h⟩
    | rel h => exact .inl h
  · rintro (h | ⟨rfl, h⟩)
    · exact List.Lex.rel h
    · exact List.Lex.cons h

theorem cons_le_cons_iff {a b : UInt8} {l l' : Bytes} : a :: l ≤ b :: l' ↔ a < b ∨ a = b ∧ l ≤ l' := by
  rw [le_iff_lt_or_eq, le_iff_lt_or_eq, cons_lt_cons_iff, List.cons.injEq, and_or_left, or_assoc]

theorem not_cons_le_nil (a : UInt8) (l : Bytes) : ¬ a :: l ≤ [] := by
  rw [not_le]
  exact List.nil_lt_cons a l

theorem append_lt_append_iff (p a b : Bytes) : p ++ a < p ++ b ↔ a < b := by
  induction p with
  | nil => rfl
  | cons x p ih => simp only [List.cons_append, cons_lt_cons_iff, lt_irrefl, true_and, false_or, ih]

theorem append_le_append_iff (p a b : Bytes) : p ++ a ≤ p ++ b ↔ a ≤ b := by
  rw [le_iff_lt_or_eq, le_iff_lt_or_eq, append_lt_append_iff, List.append_cancel_left_eq]

theorem le_append (p t : Bytes) : p ≤ p ++ t := by
  simpa using (append_le_append_iff p [] t).2 (List.nil_le)

private theorem append_lt_of_not_isPrefix {p k : Bytes} (hle : p ≤ k) (hp : ¬ p <+: k) (t : Bytes) : p ++ t < k := by
  induction p generalizing k with
  | nil => exact absurd List.nil_prefix hp
  | cons x p ih =>
    cases k with
    | nil => exact absurd hle (not_cons_le_nil x p)
    | cons y k =>
      rw [List.cons_prefix_cons, not_and] at hp
      rcases cons_le_cons_iff.1 hle with h | ⟨rfl, h⟩
      · exact List.Lex.rel h
      · exact List.Lex.cons (ih h (hp rfl))

/-- A string between `p ++ s` and `p ++ e` extends `p`. -/
theorem prefix_of_between {p s e k : Bytes} (h₁ : p ++ s ≤ k) (h₂ : k < p ++ e) : p <+: k := by
  by_contra hp
  exact lt_asymm h₂ (append_lt_of_not_isPrefix ((le_append p s).trans h₁) hp e)

/-- A string of `0xff` bytes is extended by every string at or above it. -/
theorem prefix_of_all_ff {r k : Bytes} (hr : ∀ b ∈ r, b = 0xff) (h : r ≤ k) : r <+: k := by
  induction r generalizing k with
  | nil => exact List.nil_prefix
  | cons x r ih =>
    cases k with
    | nil => exact absurd h (not_cons_le_nil x r)
    | cons y k =>
      have hx : x = 0xff := hr x (List.mem_cons_self x r)
      rcases cons_le_cons_iff.1 h with hxy | ⟨rfl, hrk⟩
      · exact absurd (hx ▸ hxy) (not_lt.2 (byte_le_ff y))
      · exact List.cons_prefix_cons.2 ⟨rfl, ih (fun b hb => hr b (List.mem_cons_of_mem x hb)) hrk⟩

end Bytes

end BurrowState
