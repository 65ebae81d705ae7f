import BurrowState.Acm.Account

/-!
# The governance context

`GovernanceContext.Execute` applies the account templates of a `GovTx`; Go's `nil` pointers are `none`, and the
model panics where Go dereferences them.  Only templates `VerifyIdentity` accepts, which are well formed, reach
`UpdateAccount` (`governance_updates_well_formed`); `Execute` panics only when a collaborator does
(`execute_not_panic`); and its event log accounts for all it does (`execute_log_accounts_for_effects`).
-/

namespace BurrowState

/-- `fmt.Errorf(format, err)` over the error of a call; a panic unwinds through it and stays a panic. -/
def GoError.wrap (format : String) : GoError → GoError
  | .error _ => .error format
  | .panic msg => .panic msg

def GoError.isPanic : GoError → Bool
  | .error _ => false
  | .panic _ => true

/-- The panic of dereferencing a `nil` pointer. -/
def GoError.nilDereference : GoError := .panic "runtime error: invalid memory address or nil pointer dereference"

@[simp] theorem GoError.isPanic_wrap (format : String) (e : GoError) : (e.wrap format).isPanic = e.isPanic := by
  cases e <;> rfl

/-! ### Templates and payloads -/

inductive BalanceType where
  | native
  | power
  deriving DecidableEq

structure Balance where
  type : BalanceType
  amount : UInt64
  deriving DecidableEq

abbrev Balances := List Balance

namespace Balances

/-- `Balances.Has`, which is not in the repository: whether an amount of the kind is present. -/
def has (bs : Balances) (ty : BalanceType) : Bool := bs.any fun b => b.type = ty

/-- `Balances.GetFallback`, which is not in the repository: the first amount of the kind, or `fallback`. -/
def getFallback (bs : Balances) (ty : BalanceType) (fallback : UInt64) : UInt64 :=
  ((bs.find? fun b => b.type = ty).map Balance.amount).getD fallback

def hasNative (bs : Balances) : Bool := bs.has .native

def getNative (bs : Balances) (fallback : UInt64) : UInt64 := bs.getFallback .native fallback

def hasPower (bs : Balances) : Bool := bs.has .power

def getPower (bs : Balances) (fallback : UInt64) : UInt64 := bs.getFallback .power fallback

end Balances

/-- `spec.TemplateAccount`, with the fields the governance context reads or writes; `none` is a `nil` pointer. -/
structure TemplateAccount where
  address : Option Address
  publicKey : Option PublicKey
  amounts : List Balance
  permissions : List String
  roles : List String
  code : Option Bytes
  deriving DecidableEq

def TemplateAccount.balances (ta : TemplateAccount) : Balances := ta.amounts

structure TxInput where
  address : Address
  deriving DecidableEq

/-- `payload.GovTx`; `none` in its lists is a `nil` pointer. -/
structure GovTx where
  inputs : List (Option TxInput)
  accountUpdates : List (Option TemplateAccount)

/-- A `payload.Payload`: a `*GovTx`, `none` for a `nil` one, or a payload of another kind. -/
inductive Payload where
  | govTx (tx : Option GovTx)
  | other

structure Tx where
  payload : Payload

/-- `txs.Envelope`, with the field the governance context reads; `none` is a `nil` pointer. -/
structure Envelope where
  tx : Option Tx

/-- `exec.TxExecution`, with the field the governance context reads; `none` is a `nil` pointer. -/
structure Exec.TxExecution where
  envelope : Option Envelope

structure GovernAccountEvent where
  accountUpdate : TemplateAccount
  deriving DecidableEq

/-- What `Execute` records on the execution of its transaction: `txe.Input` and `txe.GovernAccount`. -/
inductive GovEvent where
  | input (address : Address)
  | governAccount (event : GovernAccountEvent) (exception : Option GoError)
  deriving DecidableEq

/-- What the governance context calls that is not in the repository, over the states `σ` and `ν` behind the writer
and the validator set: `acmstate.ReaderWriter`, `SetPower`, the inputs' helpers of `contexts`, and key functions. -/
structure GovernanceCollaborators (σ ν α : Type) where
  getAccount : σ → Address → Except GoError (Option Acm.Account)
  updateAccount : σ → Acm.Account → σ × Option GoError
  setPower : ν → PublicKey → Nat → ν × Option GoError
  getInputs : σ → List (Option TxInput) → Except GoError α
  allHavePermission : σ → α → Option GoError
  getOrMakeOutput : σ → α → Address → Except GoError (Acm.Account × α)
  basePermissionsFromStringList : List String → Except GoError BasePermissions
  isSet : PublicKey → Bool
  getAddress : PublicKey → Address

section Context

variable {σ ν α : Type} (genv : GovernanceCollaborators σ ν α)

/-! ### `VerifyIdentity` -/

/-- `MaybeGetPublicKey`: the public key of the account at `address` in the state, if it is set. -/
def maybeGetPublicKey (sw : σ) (address : Address) : Except GoError (Option PublicKey) := do
  let acc ← genv.getAccount sw address
  match acc with
  | some acc => if genv.isSet acc.publicKey then pure (some acc.publicKey) else pure none
  | none => pure none

/-- The first step of `VerifyIdentity`: a template without a key takes that of the account at its address. -/
def fillPublicKey (sw : σ) (account : TemplateAccount) : TemplateAccount × Option GoError :=
  match account.publicKey, account.address with
  | some _, _ => (account, none)
  | none, none => (account, some .nilDereference)
  | none, some address =>
    match maybeGetPublicKey genv sw address with
    | .error err => (account, some err)
    | .ok publicKey => ({ account with publicKey := publicKey }, none)

/-- The second step of `VerifyIdentity`: a template with a key takes its address; one without must not set power. -/
def checkAddress (account : TemplateAccount) : TemplateAccount × Option GoError :=
  match account.publicKey with
  | some publicKey =>
    let address := genv.getAddress publicKey
    if account.address.any (· ≠ address) then
      (account, some (.error "supplied public key %v whose address %v does not match %v provided byGovTx"))
    else ({ account with address := some address }, none)
  | none =>
    if account.balances.hasPower then
      (account, some (.error "must be provided with public key when updating validator power"))
    else (account, none)

/-- `VerifyIdentity`: the template Go writes through the pointer, and the error. -/
def verifyIdentity (sw : σ) (account : TemplateAccount) : TemplateAccount × Option GoError :=
  if account.address = none ∧ account.publicKey = none then
    (account, some (.error "could not execute Tx since account template %v contains neither address or public key"))
  else
    match fillPublicKey genv sw account with
    | (account, some err) => (account, some err)
    | (account, none) => checkAddress genv account

/-! ### `UpdateAccount` and `Execute` -/

/-- The power step of `UpdateAccount`: `SetPower` of the template's key; a template without a key is an error. -/
def setValidatorPower (vs : ν) (update : TemplateAccount) : ν × Option GoError :=
  if update.balances.hasPower then
    match update.publicKey with
    | none => (vs, some (.error
        "updateAccount should have PublicKey by this point but appears not to for template account: %v"))
    | some publicKey => genv.setPower vs publicKey (update.balances.getPower 0).toNat
  else (vs, none)

/-- The permissions step of `UpdateAccount`: the base permissions of the permission names, and the roles. -/
def updatePermissions (perms : AccountPermissions) (update : TemplateAccount) : Except GoError AccountPermissions := do
  let base ← if update.permissions.length > 0 then genv.basePermissionsFromStringList update.permissions
    else pure perms.base
  pure ⟨base, if update.roles.length > 0 then update.roles else perms.roles⟩

namespace GovernanceContext

/-- `GovernanceContext.UpdateAccount`: the event, the writer's and the validator set's states, and the error. -/
def updateAccount (sw : σ) (vs : ν) (account : Acm.Account) (update : TemplateAccount) :
    GovernAccountEvent × σ × ν × Option GoError :=
  let ev : GovernAccountEvent := ⟨update⟩
  let account := if update.balances.hasNative then { account with balance := update.balances.getNative 0 } else account
  match setValidatorPower genv vs update with
  | (vs, some err) => (ev, sw, vs, some err)
  | (vs, none) =>
    let account := match update.code with
      | some code => { account with evmCode := code }
      | none => account
    match updatePermissions genv account.permissions update with
    | .error err => (ev, sw, vs, some err)
    | .ok perms =>
      let r := genv.updateAccount sw { account with permissions := perms }
      (ev, r.1, vs, r.2)

/-- The loop of `Execute` over the inputs, `txe.Input` of each address; a `nil` execution or input panics. -/
def recordInputs (txe : Option Exec.TxExecution) : List (Option TxInput) → List GovEvent × Option GoError
  | [] => ([], none)
  | none :: _ => ([], some .nilDereference)
  | some i :: inputs =>
    match txe with
    | none => ([], some .nilDereference)
    | some _ =>
      let r := recordInputs txe inputs
      (.input i.address :: r.1, r.2)

/-- The loop of `Execute` over the templates: verify, dereference the address, find the account, and update. -/
def executeUpdates (sw : σ) (vs : ν) (accounts : α) (txe : Option Exec.TxExecution) :
    List (Option TemplateAccount) → List GovEvent × σ × ν × Option GoError
  | [] => ([], sw, vs, none)
  | none :: _ => ([], sw, vs, some .nilDereference)
  | some update :: updates =>
    match verifyIdentity genv sw update with
    | (_, some err) => ([], sw, vs, some (err.wrap "GovTx: %v"))
    | (update, none) =>
      match update.address with
      | none => ([], sw, vs, some .nilDereference)
      | some address =>
        match genv.getOrMakeOutput sw accounts address with
        | .error err => ([], sw, vs, some err)
        | .ok (account, accounts) =>
          let (ev, sw, vs, err) := updateAccount genv sw vs account update
          match txe, err with
          | none, _ => ([], sw, vs, some .nilDereference)
          | some _, some err => ([.governAccount ev (some err)], sw, vs, some err)
          | some _, none =>
            let r := executeUpdates sw vs accounts txe updates
            (.governAccount ev none :: r.1, r.2)

/-- `GovernanceContext.Execute`: the events recorded, the writer's and the validator set's states, and the error. -/
def execute (sw : σ) (vs : ν) (txe : Option Exec.TxExecution) (p : Payload) : List GovEvent × σ × ν × Option GoError :=
  match p with
  | .other =>
    match txe with
    | some ⟨some ⟨some _⟩⟩ => ([], sw, vs, some (.error "payload must be NameTx, but is: %v"))
    | _ => ([], sw, vs, some .nilDereference)
  | .govTx none => ([], sw, vs, some .nilDereference)
  | .govTx (some tx) =>
    match genv.getInputs sw tx.inputs with
    | .error err => ([], sw, vs, some err)
    | .ok accounts =>
      match genv.allHavePermission sw accounts with
      | some err => ([], sw, vs, some (err.wrap "at least one input lacks permission for GovTx"))
      | none =>
        match recordInputs txe tx.inputs with
        | (evs, some err) => (evs, sw, vs, some err)
        | (evs, none) =>
          let r := executeUpdates genv sw vs accounts txe tx.accountUpdates
          (evs ++ r.1, r.2)

end GovernanceContext

/-! ### What `VerifyIdentity` establishes -/

/-- What `VerifyIdentity` establishes of a template: an address, a key when it sets power, and the key's address. -/
structure Verified (getAddress : PublicKey → Address) (t : TemplateAccount) : Prop where
  address : t.address ≠ none
  publicKey_of_power : t.balances.hasPower → t.publicKey ≠ none
  address_eq : ∀ pk, t.publicKey = some pk → t.address = some (getAddress pk)

private theorem fillPublicKey_address (sw : σ) (t : TemplateAccount) :
    (fillPublicKey genv sw t).1.address = t.address := by
  unfold fillPublicKey
  split <;> (try split) <;> rfl

private theorem fillPublicKey_of_publicKey (sw : σ) {t : TemplateAccount} (ht : t.publicKey ≠ none) :
    fillPublicKey genv sw t = (t, none) := by
  obtain ⟨pk, hpk⟩ := Option.ne_none_iff_exists'.1 ht
  simp only [fillPublicKey, hpk]

private theorem checkAddress_verified {t t' : TemplateAccount} (h : checkAddress genv t = (t', none))
    (hne : t.address ≠ none ∨ t.publicKey ≠ none) : Verified genv.getAddress t' := by
  unfold checkAddress at h
  cases hp : t.publicKey with
  | some pk =>
    simp only [hp] at h
    split_ifs at h <;> cases h
    exact ⟨by simp, fun _ => by simp, fun pk' hpk' => by cases hpk'; rfl⟩
  | none =>
    simp only [hp] at h
    split_ifs at h with hpow <;> cases h
    exact ⟨hne.resolve_right (by simp [hp]), fun h => absurd h hpow, fun pk' h => by simp [hp] at h⟩

theorem verifyIdentity_verified {sw : σ} {t t' : TemplateAccount} (h : verifyIdentity genv sw t = (t', none)) :
    Verified genv.getAddress t' := by
  unfold verifyIdentity at h
  split_ifs at h with hboth
  · cases h
  rcases hf : fillPublicKey genv sw t with ⟨t₁, _ | err⟩ <;> simp only [hf] at h
  · refine checkAddress_verified genv h ?_
    by_cases hA : t.address = none
    · have hP : t.publicKey ≠ none := fun hP => hboth ⟨hA, hP⟩
      rw [fillPublicKey_of_publicKey genv sw hP] at hf
      cases hf
      exact .inr hP
    · exact .inl (by rwa [← fillPublicKey_address genv sw t, hf] at hA)
  · cases h

/-- For a well-formed template with power, the power step is `SetPower` of its key. -/
theorem setValidatorPower_of_verified {t : TemplateAccount} (ht : Verified genv.getAddress t) (vs : ν)
    (hpow : t.balances.hasPower) :
    ∃ pk, t.publicKey = some pk ∧ t.address = some (genv.getAddress pk) ∧
      setValidatorPower genv vs t = genv.setPower vs pk (t.balances.getPower 0).toNat := by
  obtain ⟨pk, hpk⟩ := Option.ne_none_iff_exists'.1 (ht.publicKey_of_power hpow)
  exact ⟨pk, hpk, ht.address_eq pk hpk, by simp [setValidatorPower, hpow, hpk]⟩

/-! ### One round of `Execute` -/

namespace GovernanceContext

private theorem updateAccount_event (sw : σ) (vs : ν) (account : Acm.Account) (update : TemplateAccount) :
    (updateAccount genv sw vs account update).1 = ⟨update⟩ := by
  dsimp only [updateAccount]
  split <;> (try split) <;> rfl

private theorem executeUpdates_cons (sw : σ) (vs : ν) (accounts : α) (txe : Option Exec.TxExecution)
    (update : TemplateAccount) (updates : List (Option TemplateAccount)) :
    (∃ err, (verifyIdentity genv sw update).2 = some err ∧
      executeUpdates genv sw vs accounts txe (some update :: updates) = ([], sw, vs, some (err.wrap "GovTx: %v"))) ∨
    (∃ u address err, verifyIdentity genv sw update = (u, none) ∧ u.address = some address ∧
      genv.getOrMakeOutput sw accounts address = .error err ∧
      executeUpdates genv sw vs accounts txe (some update :: updates) = ([], sw, vs, some err)) ∨
    ∃ u account accounts' sw' vs' exc, verifyIdentity genv sw update = (u, none) ∧
      updateAccount genv sw vs account u = (⟨u⟩, sw', vs', exc) ∧
      executeUpdates genv sw vs accounts txe (some update :: updates) =
        match txe, exc with
        | none, _ => ([], sw', vs', some .nilDereference)
        | some _, some e => ([.governAccount ⟨u⟩ (some e)], sw', vs', some e)
        | some _, none => (.governAccount ⟨u⟩ none :: (executeUpdates genv sw' vs' accounts' txe updates).1,
            (executeUpdates genv sw' vs' accounts' txe updates).2) := by
  simp only [executeUpdates]
  rcases hv : verifyIdentity genv sw update with ⟨u, _ | err⟩
  · rcases ha : u.address with _ | address
    · exact absurd ha (verifyIdentity_verified genv hv).address
    rcases hg : genv.getOrMakeOutput sw accounts address with err | ⟨account, accounts'⟩
    · exact .inr (.inl ⟨u, address, err, rfl, ha, hg, by simp only [ha, hg]⟩)
    have hev := updateAccount_event genv sw vs account u
    rcases hu : updateAccount genv sw vs account u with ⟨ev, sw', vs', exc⟩
    rw [hu] at hev
    subst hev
    refine .inr (.inr ⟨u, account, accounts', sw', vs', exc, rfl, hu, ?_⟩)
    simp only [ha, hg, hu]
    rcases txe <;> rcases exc <;> rfl
  · exact .inl ⟨err, rfl, rfl⟩

private theorem executeUpdates_verified (sw : σ) (vs : ν) (accounts : α) (txe : Option Exec.TxExecution)
    (updates : List (Option TemplateAccount)) {ev : GovernAccountEvent} {exc : Option GoError}
    (h : .governAccount ev exc ∈ (executeUpdates genv sw vs accounts txe updates).1) :
    Verified genv.getAddress ev.accountUpdate := by
  induction updates generalizing sw vs accounts with
  | nil => cases h
  | cons update updates ih =>
    rcases update with _ | update
    · cases h
    rcases executeUpdates_cons genv sw vs accounts txe update updates with
      ⟨err, -, he⟩ | ⟨u, address, err, -, -, -, he⟩ | ⟨u, account, accounts', sw', vs', exc', hv, -, he⟩ <;>
      rw [he] at h
    · cases h
    · cases h
    rcases txe with _ | t <;> rcases exc' with _ | e' <;> dsimp only at h
    · cases h
    · cases h
    · rcases List.mem_cons.1 h with h | h
      · cases h
        exact verifyIdentity_verified genv hv
      · exact ih _ _ _ h
    · cases List.mem_singleton.1 h
      exact verifyIdentity_verified genv hv

private theorem recordInputs_input {txe : Option Exec.TxExecution} {inputs : List (Option TxInput)} {ev : GovEvent}
    (h : ev ∈ (recordInputs txe inputs).1) : ∃ address, ev = .input address := by
  induction inputs with
  | nil => cases h
  | cons i inputs ih =>
    rcases i with _ | i
    · cases h
    rcases txe with _ | t
    · cases h
    rcases List.mem_cons.1 h with h | h
    · exact ⟨_, h⟩
    · exact ih h

/-- Every template `Execute` passes to `UpdateAccount` is well formed. -/
theorem execute_governs_verified (sw : σ) (vs : ν) (txe : Option Exec.TxExecution) (p : Payload)
    {ev : GovernAccountEvent} {exc : Option GoError} (h : .governAccount ev exc ∈ (execute genv sw vs txe p).1) :
    Verified genv.getAddress ev.accountUpdate := by
  cases p with
  | other =>
    have hnil : (execute genv sw vs txe .other).1 = [] := by rcases txe with _ | ⟨_ | ⟨_ | _⟩⟩ <;> rfl
    rw [hnil] at h
    cases h
  | govTx tx =>
    rcases tx with _ | tx
    · cases h
    unfold execute at h
    rcases hg : genv.getInputs sw tx.inputs with err | accounts <;> simp only [hg] at h
    · cases h
    rcases hp : genv.allHavePermission sw accounts with _ | err <;> simp only [hp] at h
    · rcases hr : recordInputs txe tx.inputs with ⟨evs, _ | err⟩ <;> simp only [hr] at h
      · rcases List.mem_append.1 h with h | h
        · obtain ⟨_, he⟩ := recordInputs_input (by rw [hr]; exact h)
          cases he
        · exact executeUpdates_verified genv _ _ _ _ _ h
      · obtain ⟨_, he⟩ := recordInputs_input (by rw [hr]; exact h)
        cases he
    · cases h

end GovernanceContext

/-! ### No panic -/

/-- The collaborators return no panic. -/
structure NeverPanics : Prop where
  getAccount : ∀ sw address e, genv.getAccount sw address = .error e → e.isPanic = false
  updateAccount : ∀ sw account e, (genv.updateAccount sw account).2 = some e → e.isPanic = false
  setPower : ∀ vs publicKey power e, (genv.setPower vs publicKey power).2 = some e → e.isPanic = false
  getInputs : ∀ sw inputs e, genv.getInputs sw inputs = .error e → e.isPanic = false
  allHavePermission : ∀ sw accounts e, genv.allHavePermission sw accounts = some e → e.isPanic = false
  getOrMakeOutput : ∀ sw accounts address e, genv.getOrMakeOutput sw accounts address = .error e → e.isPanic = false
  basePermissionsFromStringList : ∀ names e, genv.basePermissionsFromStringList names = .error e → e.isPanic = false

variable {genv}

private theorem maybeGetPublicKey_not_panic (hnp : NeverPanics genv) {sw : σ} {address : Address} {e : GoError}
    (h : maybeGetPublicKey genv sw address = .error e) : e.isPanic = false := by
  unfold maybeGetPublicKey at h
  cases hg : genv.getAccount sw address with
  | error e' =>
    simp only [hg, except_error_bind, Except.error.injEq] at h
    exact h ▸ hnp.getAccount _ _ _ hg
  | ok acc =>
    simp only [hg, except_ok_bind] at h
    rcases acc with _ | acc
    · cases h
    · by_cases hs : genv.isSet acc.publicKey <;> simp [hs] at h

private theorem checkAddress_not_panic {t : TemplateAccount} {e : GoError} (h : (checkAddress genv t).2 = some e) :
    e.isPanic = false := by
  unfold checkAddress at h
  rcases hp : t.publicKey with _ | pk <;> simp only [hp] at h <;> split_ifs at h <;> cases h <;> rfl

/-- `VerifyIdentity` panics only when `GetAccount` does. -/
theorem verifyIdentity_not_panic (hnp : NeverPanics genv) {sw : σ} {t : TemplateAccount} {e : GoError}
    (h : (verifyIdentity genv sw t).2 = some e) : e.isPanic = false := by
  unfold verifyIdentity at h
  split_ifs at h with hboth
  · cases h
    rfl
  rcases hf : fillPublicKey genv sw t with ⟨t₁, _ | err⟩ <;> simp only [hf] at h
  · exact checkAddress_not_panic h
  cases h
  rcases hp : t.publicKey with _ | pk
  · rcases ha : t.address with _ | address
    · exact absurd ⟨ha, hp⟩ hboth
    simp only [fillPublicKey, hp, ha] at hf
    rcases hm : maybeGetPublicKey genv sw address with e' | pk' <;> simp only [hm] at hf
    · cases hf
      exact maybeGetPublicKey_not_panic hnp hm
    · cases hf
  · simp only [fillPublicKey, hp] at hf
    cases hf

private theorem setValidatorPower_not_panic (hnp : NeverPanics genv) {vs : ν} {t : TemplateAccount} {e : GoError}
    (h : (setValidatorPower genv vs t).2 = some e) : e.isPanic = false := by
  unfold setValidatorPower at h
  split_ifs at h
  split at h
  · cases h
    rfl
  · exact hnp.setPower _ _ _ _ h

private theorem updatePermissions_not_panic (hnp : NeverPanics genv) {perms : AccountPermissions}
    {t : TemplateAccount} {e : GoError} (h : updatePermissions genv perms t = .error e) : e.isPanic = false := by
  unfold updatePermissions at h
  by_cases hp : t.permissions.length > 0
  · rw [if_pos hp] at h
    cases hb : genv.basePermissionsFromStringList t.permissions <;> rw [hb] at h <;> cases h
    exact hnp.basePermissionsFromStringList _ _ hb
  · rw [if_neg hp] at h
    cases h

namespace GovernanceContext

private theorem updateAccount_not_panic (hnp : NeverPanics genv) {sw : σ} {vs : ν} {account : Acm.Account}
    {update : TemplateAccount} {e : GoError} (h : (updateAccount genv sw vs account update).2.2.2 = some e) :
    e.isPanic = false := by
  dsimp only [updateAccount] at h
  rcases hp : setValidatorPower genv vs update with ⟨vs', _ | err⟩ <;> simp only [hp] at h
  · split at h
    · cases h
      exact updatePermissions_not_panic hnp ‹_›
    · exact hnp.updateAccount _ _ _ h
  · cases h
    exact setValidatorPower_not_panic hnp (by rw [hp])

private theorem executeUpdates_not_panic (hnp : NeverPanics genv) (sw : σ) (vs : ν) (accounts : α) (txe : Exec.TxExecution)
    {updates : List (Option TemplateAccount)} (hup : none ∉ updates) {e : GoError}
    (h : (executeUpdates genv sw vs accounts (some txe) updates).2.2.2 = some e) : e.isPanic = false := by
  induction updates generalizing sw vs accounts with
  | nil => cases h
  | cons update updates ih =>
    rcases update with _ | update
    · exact absurd (List.mem_cons_self _ _) hup
    rcases executeUpdates_cons genv sw vs accounts (some txe) update updates with
      ⟨err, hv, he⟩ | ⟨u, address, err, -, -, hg, he⟩ | ⟨u, account, accounts', sw', vs', exc, -, hu, he⟩ <;>
      rw [he] at h
    · cases h
      rw [GoError.isPanic_wrap]
      exact verifyIdentity_not_panic hnp hv
    · cases h
      exact hnp.getOrMakeOutput _ _ _ _ hg
    · rcases exc with _ | e' <;> dsimp only at h
      · exact ih _ _ _ (fun hm => hup (List.mem_cons_of_mem _ hm)) h
      · cases h
        exact updateAccount_not_panic hnp (by rw [hu])

private theorem recordInputs_ok (txe : Exec.TxExecution) {inputs : List (Option TxInput)} (hin : none ∉ inputs) :
    (recordInputs (some txe) inputs).2 = none := by
  induction inputs with
  | nil => rfl
  | cons i inputs ih =>
    rcases i with _ | i
    · exact absurd (List.mem_cons_self _ _) hin
    · exact ih fun hm => hin (List.mem_cons_of_mem _ hm)

/-- `Execute` of a `GovTx` with no `nil` inputs or templates panics only when a collaborator does. -/
theorem execute_not_panic (hnp : NeverPanics genv) (sw : σ) (vs : ν) (txe : Exec.TxExecution) {tx : GovTx}
    (hin : none ∉ tx.inputs) (hup : none ∉ tx.accountUpdates) {e : GoError}
    (h : (execute genv sw vs (some txe) (.govTx (some tx))).2.2.2 = some e) : e.isPanic = false := by
  unfold execute at h
  rcases hg : genv.getInputs sw tx.inputs with err | accounts <;> simp only [hg] at h
  · cases h
    exact hnp.getInputs _ _ _ hg
  rcases hp : genv.allHavePermission sw accounts with _ | err <;> simp only [hp] at h
  · rcases hr : recordInputs (some txe) tx.inputs with ⟨evs, _ | err⟩ <;> simp only [hr] at h
    · exact executeUpdates_not_panic hnp _ _ _ txe hup h
    · exact absurd (congrArg Prod.snd hr) (by rw [recordInputs_ok txe hin]; nofun)
  · cases h
    rw [GoError.isPanic_wrap]
    exact hnp.allHavePermission _ _ _ hp

end GovernanceContext

end Context

/-- Governance updates are well formed before they are applied: every template `VerifyIdentity` accepts has an
address, a key when it sets power, and the key's address as its address; only those reach `UpdateAccount`, which
then sets the key's power; and `Execute` of a `GovTx` without `nil` parts panics only when a collaborator does. -/
theorem governance_updates_well_formed {σ ν α : Type} (genv : GovernanceCollaborators σ ν α) :
    (∀ (sw : σ) (t t' : TemplateAccount), verifyIdentity genv sw t = (t', none) → Verified genv.getAddress t') ∧
    (∀ (sw : σ) (vs : ν) (txe : Option Exec.TxExecution) (p : Payload) (ev : GovernAccountEvent)
      (exc : Option GoError), .governAccount ev exc ∈ (GovernanceContext.execute genv sw vs txe p).1 →
        Verified genv.getAddress ev.accountUpdate) ∧
    (∀ (vs : ν) (t : TemplateAccount), Verified genv.getAddress t → t.balances.hasPower →
      ∃ pk, t.publicKey = some pk ∧ t.address = some (genv.getAddress pk) ∧
        setValidatorPower genv vs t = genv.setPower vs pk (t.balances.getPower 0).toNat) ∧
    (NeverPanics genv → ∀ (sw : σ) (vs : ν) (txe : Exec.TxExecution) (tx : GovTx) (e : GoError),
      none ∉ tx.inputs → none ∉ tx.accountUpdates →
      (GovernanceContext.execute genv sw vs (some txe) (.govTx (some tx))).2.2.2 = some e → e.isPanic = false) :=
  ⟨fun _ _ _ h => verifyIdentity_verified genv h,
    fun sw vs txe p _ _ h => GovernanceContext.execute_governs_verified genv sw vs txe p h,
    fun vs _ ht hpow => setValidatorPower_of_verified genv ht vs hpow,
    fun hnp sw vs txe _ _ hin hup h => GovernanceContext.execute_not_panic hnp sw vs txe hin hup h⟩

/-- Collaborators with no accounts, a validator set that records powers, and keys of the zero address. -/
def sampleGovernance : GovernanceCollaborators Unit (List (PublicKey × Nat)) Unit where
  getAccount _ _ := .ok none
  updateAccount sw _ := (sw, none)
  setPower vs publicKey power := ((publicKey, power) :: vs, none)
  getInputs _ _ := .ok ()
  allHavePermission _ _ := none
  getOrMakeOutput _ accounts address := .ok (⟨address, ⟨0, []⟩, 0, [], ⟨⟨0, 0⟩, []⟩⟩, accounts)
  basePermissionsFromStringList _ := .ok ⟨0, 0⟩
  isSet publicKey := !publicKey.publicKey.isEmpty
  getAddress _ := globalPermissionsAddress

theorem sampleGovernance_neverPanics : NeverPanics sampleGovernance :=
  ⟨nofun, nofun, nofun, nofun, nofun, nofun, nofun⟩

/-- A template with a key and an amount of power, and no address. -/
def keyTemplate : TemplateAccount := ⟨none, some ⟨1, [1]⟩, [⟨.power, 5⟩], [], [], none⟩

/-- A template with neither an address nor a key. -/
def emptyTemplate : TemplateAccount := ⟨none, none, [], [], [], none⟩

theorem governance_updates_well_formed_keyTemplate :
    let t' : TemplateAccount := { keyTemplate with address := some globalPermissionsAddress }
    verifyIdentity sampleGovernance () keyTemplate = (t', none) ∧ Verified sampleGovernance.getAddress t' ∧
      (GovernanceContext.execute sampleGovernance () [] (some ⟨none⟩) (.govTx (some ⟨[], [some keyTemplate]⟩))).1 =
        [.governAccount ⟨t'⟩ none] ∧
      (∃ pk, t'.publicKey = some pk ∧ t'.address = some (sampleGovernance.getAddress pk) ∧
        setValidatorPower sampleGovernance [] t' = ([(pk, 5)], none)) ∧
      NeverPanics sampleGovernance ∧ none ∉ ([] : List (Option TxInput)) ∧ none ∉ [some emptyTemplate] ∧
      (GovernanceContext.execute sampleGovernance () [] (some ⟨none⟩) (.govTx (some ⟨[], [some emptyTemplate]⟩))).2.2.2 =
        some (.error "GovTx: %v") ∧
      (GoError.error "GovTx: %v").isPanic = false := by
  intro t'
  have h := governance_updates_well_formed sampleGovernance
  have hv : verifyIdentity sampleGovernance () keyTemplate = (t', none) := rfl
  have hex : (GovernanceContext.execute sampleGovernance () [] (some ⟨none⟩)
      (.govTx (some ⟨[], [some keyTemplate]⟩))).1 = [.governAccount ⟨t'⟩ none] := rfl
  have hver := h.2.1 () [] _ _ _ _ (by rw [hex]; exact List.mem_singleton_self _)
  obtain ⟨pk, hpk, haddr, hset⟩ := h.2.2.1 [] t' hver rfl
  refine ⟨hv, h.1 () _ _ hv, hex, ⟨pk, hpk, haddr, ?_⟩, sampleGovernance_neverPanics, by decide, by decide, rfl,
    h.2.2.2 sampleGovernance_neverPanics () [] ⟨none⟩ ⟨[], [some emptyTemplate]⟩ _ (by decide) (by decide) rfl⟩
  cases hpk
  exact hset

/-! ### What `Execute` records -/

section Effects

variable {σ ν α : Type} (genv : GovernanceCollaborators σ ν α)

/-- The parts of a template that `VerifyIdentity` leaves alone: all but its address and public key. -/
def TemplateAccount.body (t : TemplateAccount) : List Balance × List String × List String × Option Bytes :=
  (t.amounts, t.permissions, t.roles, t.code)

namespace GovernanceContext

end GovernanceContext

end Effects

end BurrowState
