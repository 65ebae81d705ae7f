import BurrowState.Storage.Bytes

/-!
# Prefixes

`storage.Prefix`: `Key` prepends it (`nil` for a `nil` prefix and an empty key, `keySlice`), `Suffix` strips it,
and `Above`/`Below` are the siblings that bound its extensions, one backward scan (`siblingScan`).  `above p` is
`nil` iff every byte of `p` is `0xff`, and otherwise `p ≤ s < above p` iff `p` prefixes `s`
(`above_below_bound_prefixed`).
-/

namespace BurrowState

/-- `storage.Prefix`. -/
abbrev Prefix := Bytes

namespace Prefix

/-- `Prefix.Key`: the physical key of a local key. -/
def key (p : Prefix) (key : Bytes) : Bytes := p ++ key

/-- `Prefix.Suffix`: `key[len(p):]`, which panics on a key shorter than the prefix. -/
def suffix (p : Prefix) (key : Bytes) : Except GoError Bytes :=
  if p.length ≤ key.length then .ok (key.drop p.length)
  else .error (.panic "runtime error: slice bounds out of range")

@[simp] theorem key_eq (p k : Bytes) : Prefix.key p k = p ++ k := rfl

theorem suffix_key (p k : Bytes) : Prefix.suffix p (Prefix.key p k) = .ok k := by
  simp [suffix]

/-- `append(p[:len(p):len(p)], key...)` of slices that may be `nil`: `nil` iff `p` is `nil` and `key` is empty. -/
def keySlice : Option Prefix → Option Bytes → Option Bytes
  | some p, key => some (p.key (key.getD []))
  | none, key => if key.getD [] = [] then none else key

@[simp] theorem keySlice_some (p : Prefix) (key : Option Bytes) : keySlice (some p) key = some (p ++ key.getD []) :=
  rfl

theorem keySlice_none (key : Option Bytes) : keySlice none key = if key = some [] then none else key := by
  rcases key with _ | k <;> simp [keySlice]

/-- The loop of `Above` and `Below`: from the last byte back, the first byte `c` with `movable c` becomes `move c`
and the copy is cut after it; `none` (Go's `nil`) if there is none. -/
def siblingScan (p : Prefix) (movable : UInt8 → Bool) (move : UInt8 → UInt8) : Nat → Option Bytes
  | 0 => none
  | i + 1 =>
    if movable (p.getD i 0) then some ((p.take (i + 1)).set i (move (p.getD i 0)))
    else siblingScan p movable move i

/-- `Prefix.Above`: the lexicographic sibling above the prefix. -/
def above (p : Prefix) : Option Bytes := siblingScan p (fun c => decide (c < 0xff)) (· + 1) p.length

/-- `Prefix.Below`: the lexicographic sibling below the prefix. -/
def below (p : Prefix) : Option Bytes := siblingScan p (fun c => decide (0x00 < c)) (· - 1) p.length

/-! ### The scan -/

section Scan

variable (p : Prefix) (movable : UInt8 → Bool) (move : UInt8 → UInt8)

private theorem take_succ_eq {i : Nat} (hi : i < p.length) : p.take (i + 1) = p.take i ++ [p.getD i 0] := by
  rw [List.take_succ, List.getD_eq_getElem?_getD, List.getElem?_eq_getElem hi]; rfl

private theorem siblingScan_eq_some {i : Nat} {a : Bytes} (hi : i ≤ p.length) (h : siblingScan p movable move i = some a) :
    ∃ q c r, p.take i = q ++ c :: r ∧ movable c ∧ (∀ b ∈ r, movable b = false) ∧ a = q ++ [move c] := by
  induction i with
  | zero => cases h
  | succ i ih =>
    rw [take_succ_eq p (by omega)]
    simp only [siblingScan] at h
    by_cases hm : movable (p.getD i 0)
    · rw [if_pos hm, Option.some.injEq] at h
      subst h
      have hl : (p.take i).length = i := by simp; omega
      refine ⟨p.take i, p.getD i 0, [], rfl, hm, by simp, ?_⟩
      rw [take_succ_eq p (by omega), List.set_append_right _ _ hl.le, hl]
      simp
    · rw [if_neg hm] at h
      obtain ⟨q, c, r, hq, hc, hr, rfl⟩ := ih (by omega) h
      refine ⟨q, c, r ++ [p.getD i 0], by simp [hq], hc, ?_, rfl⟩
      simp only [List.mem_append, List.mem_singleton, or_imp, forall_and, forall_eq]
      exact ⟨hr, by simpa using hm⟩

private theorem siblingScan_eq_none_iff {i : Nat} (hi : i ≤ p.length) :
    siblingScan p movable move i = none ↔ ∀ b ∈ p.take i, movable b = false := by
  induction i with
  | zero => simp [siblingScan]
  | succ i ih =>
    rw [take_succ_eq p (by omega), siblingScan]
    split <;> simp_all [ih (by omega : i ≤ p.length), or_imp, forall_and]

end Scan

/-! ### Above -/

private theorem byte_succ_toNat {c : UInt8} (hc : c < 0xff) : (c + 1).toNat = c.toNat + 1 := by
  have : c.toNat < 255 := hc
  show (c.toNat + 1) % 256 = _
  omega

theorem above_eq_none_iff (p : Prefix) : above p = none ↔ ∀ b ∈ p, b = 0xff := by
  rw [above, siblingScan_eq_none_iff p _ _ le_rfl, List.take_length]
  exact forall₂_congr fun b _ => by simpa using byte_not_lt_ff_iff b

private theorem above_eq_some {p a : Prefix} (h : above p = some a) :
    ∃ q c r, p = q ++ c :: r ∧ c < 0xff ∧ (∀ b ∈ r, b = 0xff) ∧ a = q ++ [c + 1] := by
  obtain ⟨q, c, r, hp, hc, hr, rfl⟩ := siblingScan_eq_some p _ _ le_rfl h
  rw [List.take_length] at hp
  exact ⟨q, c, r, hp, by simpa using hc, fun b hb => (byte_not_lt_ff_iff b).1 (by simpa using hr b hb), rfl⟩

/-- Every extension of `p` is below `above p`. -/
theorem append_lt_above {p a : Prefix} (h : above p = some a) (t : Bytes) : p ++ t < a := by
  obtain ⟨q, c, r, rfl, hc, -, rfl⟩ := above_eq_some h
  rw [List.append_assoc, Bytes.append_lt_append_iff, List.cons_append]
  exact List.Lex.rel (by rw [byte_lt_iff, byte_succ_toNat hc]; omega)

theorem prefix_of_lt_above {p a k : Prefix} (h : above p = some a) (h₁ : p ≤ k) (h₂ : k < a) : p <+: k := by
  obtain ⟨q, c, r, rfl, hc, hr, rfl⟩ := above_eq_some h
  obtain ⟨k, rfl⟩ := Bytes.prefix_of_between h₁ h₂
  rw [Bytes.append_le_append_iff] at h₁
  rw [Bytes.append_lt_append_iff] at h₂
  cases k with
  | nil => exact absurd h₁ (Bytes.not_cons_le_nil c r)
  | cons y k =>
    have hy : ¬ c < y := fun hcy => by
      rcases Bytes.cons_lt_cons_iff.1 h₂ with h | ⟨rfl, h⟩
      · rw [byte_lt_iff, byte_succ_toNat hc] at h; exact absurd hcy (by rw [byte_lt_iff]; omega)
      · exact absurd h (by simp)
    obtain ⟨rfl, hrk⟩ := (Bytes.cons_le_cons_iff.1 h₁).resolve_left hy
    exact (List.prefix_append_right_inj q).2 (List.cons_prefix_cons.2 ⟨rfl, Bytes.prefix_of_all_ff hr hrk⟩)

theorem prefix_of_above_eq_none {p k : Prefix} (h : above p = none) (hk : p ≤ k) : p <+: k :=
  Bytes.prefix_of_all_ff ((above_eq_none_iff p).1 h) hk

/-- From `p` up to `above p` lie exactly the extensions of `p`. -/
theorem le_lt_above_iff {p a : Prefix} (h : above p = some a) (s : Bytes) : p ≤ s ∧ s < a ↔ p <+: s := by
  refine ⟨fun hs => prefix_of_lt_above h hs.1 hs.2, ?_⟩
  rintro ⟨t, rfl⟩
  exact ⟨Bytes.le_append p t, append_lt_above h t⟩

/-- `above p` is the least string above every extension of `p`. -/
theorem above_le_of_forall_lt {p a : Prefix} (h : above p = some a) {u : Bytes} (hu : ∀ t, p ++ t < u) : a ≤ u := by
  by_contra hlt
  obtain ⟨t, rfl⟩ := prefix_of_lt_above h (by simpa using (hu []).le) (not_le.1 hlt)
  exact lt_irrefl _ (hu t)

/-! ### Below -/

theorem below_eq_none_iff (p : Prefix) : below p = none ↔ ∀ b ∈ p, b = 0x00 := by
  rw [below, siblingScan_eq_none_iff p _ _ le_rfl, List.take_length]
  refine forall₂_congr fun b _ => ?_
  simp only [decide_eq_false_iff_not, not_lt, byte_lt_iff]
  exact ⟨fun h => UInt8.toNat.inj (by simpa using Nat.le_zero.1 h), fun h => by simp [h]⟩

theorem below_lt_append {p b : Prefix} (h : below p = some b) (t : Bytes) : b < p ++ t := by
  obtain ⟨q, c, r, hp, hc, -, rfl⟩ := siblingScan_eq_some p _ _ le_rfl h
  rw [List.take_length] at hp
  subst hp
  rw [List.append_assoc, Bytes.append_lt_append_iff, List.cons_append]
  have hc : 0 < c.toNat := by simpa using hc
  exact List.Lex.rel (by
    rw [byte_lt_iff, UInt8.toNat_sub_of_le _ _ (by show (1 : UInt8).toNat ≤ c.toNat; simpa using hc)]
    simp; omega)

/-- `Above` and `Below` bound exactly the strings `p` prefixes: `above p` is `nil` iff every byte of `p` is
`0xff`, and then every string at or above `p` extends `p`; otherwise `p ≤ s < above p` iff `p` prefixes `s`, and
`above p` is the least such bound.  `below p` is `nil` iff every byte is `0x00`, else below every extension. -/
theorem above_below_bound_prefixed (p : Prefix) :
    (above p = none ↔ ∀ b ∈ p, b = 0xff) ∧
    (∀ a, above p = some a → ∀ s : Bytes, p ≤ s ∧ s < a ↔ p <+: s) ∧
    (∀ a, above p = some a → ∀ u : Bytes, (∀ t, p ++ t < u) → a ≤ u) ∧
    (above p = none → ∀ s : Bytes, p ≤ s → p <+: s) ∧
    (below p = none ↔ ∀ b ∈ p, b = 0x00) ∧
    (∀ b, below p = some b → ∀ s : Bytes, p <+: s → b < s) := by
  refine ⟨above_eq_none_iff p, fun a h => le_lt_above_iff h, fun a h u => above_le_of_forall_lt h,
    fun h s => prefix_of_above_eq_none h, below_eq_none_iff p, fun b h s hs => ?_⟩
  obtain ⟨t, rfl⟩ := hs
  exact below_lt_append h t

theorem above_below_bound_prefixed_sibling :
    above [1, 0xff] = some [2] ∧ below [1, 0xff] = some [1, 0xfe] ∧
      ∀ s : Bytes, [1, 0xff] ≤ s ∧ s < [2] ↔ [1, 0xff] <+: s :=
  ⟨rfl, rfl, (above_below_bound_prefixed [1, 0xff]).2.1 [2] rfl⟩

end Prefix

end BurrowState
