import BurrowState.Execution.State

/-!
# Accounts and their balances

`acm.Account` (part_006) and its balance methods.  `AddToBalance` fails exactly when the sum exceeds `2^64 - 1`
and `SubtractFromBalance` when the amount exceeds the balance, so over any sequence of calls the balance is the
first balance plus the credits minus the debits of the calls that returned `nil` (`runBalanceCalls_balance`).
`Equal` compares marshalled bytes: with a codec that round-trips it is equality of accounts that marshal.
-/

namespace BurrowState

/-- `crypto.PublicKey`: a curve type and the key's bytes. -/
structure PublicKey where
  curveType : UInt8
  publicKey : Bytes
  deriving DecidableEq

inductive ErrorCode where
  | integerOverflow
  | insufficientBalance
  deriving DecidableEq

/-- `errors.Exception`, what `errors.ErrorCodef` returns: a code and a message. -/
structure Exception where
  code : ErrorCode
  exception : String
  deriving DecidableEq

/-- `binary.IsUint64SumOverflow`, which is not in the repository: `math.MaxUint64 - a < b`, whether `a + b`
overflows. -/
def isUint64SumOverflow (a b : UInt64) : Bool := decide (0xFFFFFFFFFFFFFFFF - a < b)

private theorem uint64_lt_iff {a b : UInt64} : a < b ↔ a.toNat < b.toNat := Iff.rfl

private theorem uint64_toNat_le (a : UInt64) : a.toNat ≤ 0xFFFFFFFFFFFFFFFF := by
  have := UInt64.toNat_lt_size a
  simp only [UInt64.size] at this
  omega

private theorem isUint64SumOverflow_iff (a b : UInt64) :
    isUint64SumOverflow a b ↔ 0xFFFFFFFFFFFFFFFF < a.toNat + b.toNat := by
  have ha := uint64_toNat_le a
  rw [isUint64SumOverflow, decide_eq_true_iff, uint64_lt_iff, UInt64.toNat_sub_of_le _ _ ha]
  show 0xFFFFFFFFFFFFFFFF - a.toNat < b.toNat ↔ _
  omega

private theorem uint64_toNat_add {a b : UInt64} (h : a.toNat + b.toNat ≤ 0xFFFFFFFFFFFFFFFF) :
    (a + b).toNat = a.toNat + b.toNat := by
  have h : a.toBitVec.toNat + b.toBitVec.toNat < 0x10000000000000000 := by
    show a.toNat + b.toNat < 0x10000000000000000
    omega
  exact (BitVec.toNat_add _ _).trans (Nat.mod_eq_of_lt h)

namespace Acm

/-- `acm.Account`, with the fields its balance methods and the governance context read or set. -/
structure Account where
  address : Address
  publicKey : PublicKey
  balance : UInt64
  evmCode : Bytes
  permissions : AccountPermissions
  deriving DecidableEq

namespace Account

/-- `Account.AddToBalance`: the account after the call, and its error. -/
def addToBalance (acc : Account) (amount : UInt64) : Account × Option Exception :=
  if isUint64SumOverflow acc.balance amount then
    (acc, some ⟨.integerOverflow, "uint64 overflow: attempt to add %v to the balance of %s"⟩)
  else ({ acc with balance := acc.balance + amount }, none)

/-- `Account.SubtractFromBalance`: the account after the call, and its error. -/
def subtractFromBalance (acc : Account) (amount : UInt64) : Account × Option Exception :=
  if amount > acc.balance then
    (acc, some ⟨.insufficientBalance, "insufficient funds: attempt to subtract %v from the balance of %s"⟩)
  else ({ acc with balance := acc.balance - amount }, none)

/-- `AddToBalance` fails exactly when the sum exceeds `2^64 - 1`, and otherwise adds without wrapping. -/
theorem addToBalance_eq (acc : Account) (amount : UInt64) :
    acc.addToBalance amount =
      if 0xFFFFFFFFFFFFFFFF < acc.balance.toNat + amount.toNat then
        (acc, some ⟨.integerOverflow, "uint64 overflow: attempt to add %v to the balance of %s"⟩)
      else ({ acc with balance := acc.balance + amount }, none) := by
  simp only [addToBalance, isUint64SumOverflow_iff]

theorem subtractFromBalance_eq (acc : Account) (amount : UInt64) :
    acc.subtractFromBalance amount =
      if acc.balance.toNat < amount.toNat then
        (acc, some ⟨.insufficientBalance, "insufficient funds: attempt to subtract %v from the balance of %s"⟩)
      else ({ acc with balance := acc.balance - amount }, none) := rfl

/-- `Account.Equal`: both accounts marshal (`proto.Buffer.Marshal`, not in the repository), to the same bytes. -/
def equal (marshal : Account → Except GoError Bytes) (acc accOther : Account) : Bool :=
  match marshal acc, marshal accOther with
  | .ok accEnc, .ok accOtherEnc => accEnc == accOtherEnc
  | _, _ => false

/-- With a codec that round-trips, `Equal` is equality of accounts that marshal. -/
theorem equal_iff {codec : Codec Account} (hrt : codec.RoundTrip) (acc accOther : Account) :
    equal codec.encode acc accOther = true ↔ (∃ bs, codec.encode acc = .ok bs) ∧ acc = accOther := by
  unfold equal
  rcases h : codec.encode acc with _ | bs <;> rcases h' : codec.encode accOther with _ | bs' <;>
    simp only [beq_iff_eq, reduceCtorEq, exists_false, false_and, Except.ok.injEq, exists_eq', true_and, false_iff]
  · rintro rfl
    rw [h] at h'
    cases h'
  · constructor
    · rintro rfl
      exact Except.ok.inj ((hrt _ _ h).symm.trans (hrt _ _ h'))
    · rintro rfl
      rw [h] at h'
      exact Except.ok.inj h'

end Account

/-! ### Sequences of calls -/

inductive BalanceCall where
  | addToBalance (amount : UInt64)
  | subtractFromBalance (amount : UInt64)

namespace BalanceCall

def exec (acc : Account) : BalanceCall → Account × Option Exception
  | addToBalance amount => acc.addToBalance amount
  | subtractFromBalance amount => acc.subtractFromBalance amount

/-- What a call that returns `nil` adds to the balance, over the integers. -/
def delta : BalanceCall → Int
  | addToBalance amount => amount.toNat
  | subtractFromBalance amount => -amount.toNat

private theorem exec_cases (acc : Account) (c : BalanceCall) :
    ((c.exec acc).2 = none ∧ (c.exec acc).1 = { acc with balance := (c.exec acc).1.balance } ∧
      ((c.exec acc).1.balance.toNat : Int) = acc.balance.toNat + c.delta) ∨
    ((c.exec acc).2.isSome ∧ (c.exec acc).1 = acc) := by
  cases c with
  | addToBalance amount =>
    rw [exec, Account.addToBalance_eq]
    split_ifs with h
    · exact .inr ⟨rfl, rfl⟩
    · exact .inl ⟨rfl, rfl, by rw [uint64_toNat_add (by omega), delta]; omega⟩
  | subtractFromBalance amount =>
    rw [exec, Account.subtractFromBalance_eq]
    split_ifs with h
    · exact .inr ⟨rfl, rfl⟩
    · refine .inl ⟨rfl, rfl, ?_⟩
      rw [UInt64.toNat_sub_of_le _ _ (Nat.le_of_not_lt h), delta]
      omega

end BalanceCall

/-- Calls made one after the other on an account: the account after them, and the error of each call. -/
def runBalanceCalls (acc : Account) : List BalanceCall → Account × List (Option Exception)
  | [] => (acc, [])
  | c :: cs =>
    let r := c.exec acc
    let rest := runBalanceCalls r.1 cs
    (rest.1, r.2 :: rest.2)

/-- The credits minus the debits of the calls whose error is `nil`. -/
def succeededDelta : List BalanceCall → List (Option Exception) → Int
  | c :: cs, err :: errs => (if err.isNone then c.delta else 0) + succeededDelta cs errs
  | _, _ => 0

/-- Over any sequence of calls the balance is the first balance plus the credits minus the debits of the calls
that returned `nil`, over the integers. -/
theorem runBalanceCalls_balance (acc : Account) (cs : List BalanceCall) :
    ((runBalanceCalls acc cs).1.balance.toNat : Int) = acc.balance.toNat + succeededDelta cs (runBalanceCalls acc cs).2 := by
  induction cs generalizing acc with
  | nil => simp [runBalanceCalls, succeededDelta]
  | cons c cs ih =>
    simp only [runBalanceCalls, succeededDelta, ih]
    rcases BalanceCall.exec_cases acc c with ⟨hn, -, hb⟩ | ⟨hs, he⟩
    · rw [hb, hn, Option.isNone_none, if_pos rfl]
      omega
    · obtain ⟨e, he'⟩ := Option.isSome_iff_exists.1 hs
      simp [he, he']

/-- Balance arithmetic is exact and never wraps: `AddToBalance` fails iff the sum exceeds `2^64 - 1` and
`SubtractFromBalance` iff the amount exceeds the balance; a call returns `nil` and moves the balance by its amount
or leaves it alone; over any calls the balance is the first plus the credits minus the debits that returned `nil`. -/
theorem balance_arithmetic_exact :
    (∀ (acc : Account) (amount : UInt64),
      ((acc.addToBalance amount).2.isSome ↔ 0xFFFFFFFFFFFFFFFF < acc.balance.toNat + amount.toNat) ∧
      ((acc.subtractFromBalance amount).2.isSome ↔ acc.balance.toNat < amount.toNat)) ∧
    (∀ (acc : Account) (c : BalanceCall),
      ((c.exec acc).2 = none ∧ ((c.exec acc).1.balance.toNat : Int) = acc.balance.toNat + c.delta) ∨
      ((c.exec acc).2.isSome ∧ (c.exec acc).1.balance = acc.balance)) ∧
    (∀ (acc : Account) (cs : List BalanceCall),
      ((runBalanceCalls acc cs).1.balance.toNat : Int) =
          acc.balance.toNat + succeededDelta cs (runBalanceCalls acc cs).2 ∧
        (runBalanceCalls acc cs).1.balance.toNat ≤ 0xFFFFFFFFFFFFFFFF) := by
  refine ⟨fun acc amount => ⟨?_, ?_⟩, fun acc c => ?_, fun acc cs =>
    ⟨runBalanceCalls_balance acc cs, uint64_toNat_le _⟩⟩
  · rw [Account.addToBalance_eq]
    split_ifs with h <;> simpa using h
  · rw [Account.subtractFromBalance_eq]
    split_ifs with h <;> simpa using h
  · rcases BalanceCall.exec_cases acc c with ⟨hn, -, hb⟩ | ⟨hs, he⟩
    · exact .inl ⟨hn, hb⟩
    · exact .inr ⟨hs, by rw [he]⟩

end Acm

end BurrowState
