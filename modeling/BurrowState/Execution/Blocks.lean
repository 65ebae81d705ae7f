import BurrowState.Execution.Commit
import Mathlib.Data.List.Chain

/-!
# Blocks, heights and the transaction index

`AddBlock` writes blocks and the transaction index to the reference space while `GetBlock` and `GetTx` read the
tree (`getBlock_getTx_absent`); `txKeyFormat` shares the tag `b` with the blocks (`getBlocks_decodes_tx_reference`).
Accepted heights after a nonzero one go up by one in `uint64` (`accepted_heights_chain`); `LoadState` forgets the
height, a failed `AddBlock` keeps its writes, and `GetTx` trusts its reference (`getTx_trusts_reference`).
-/

namespace BurrowState

open State KVStore

variable (env : Collaborators)

/-! ### Collaborators for runs with blocks -/

/-- The sample collaborators with a block codec that writes the height and the transaction hashes. -/
def blockCollaborators : Collaborators :=
  { sampleCollaborators with
    block := ⟨fun be => .ok (uint64BE be.height ++ (be.txExecutions.map TxExecution.txHash).flatten),
      fun bs => .ok ⟨getUint64BE (bs.take uint64Length),
        if bs.length ≤ uint64Length then [] else [⟨bs.drop uint64Length⟩]⟩⟩
    commitID := ⟨fun c => .ok (uint64BE c.height), fun bs => .ok ⟨[], getUint64BE bs, 1⟩⟩ }

def txHashOne : Bytes := uint64BE 1 ++ List.replicate 24 0

/-- A block at height 1 with one transaction. -/
def blockOne : BlockExecution := ⟨1, [⟨txHashOne⟩]⟩

/-- The state after an `Update` of one `AddBlock` of `blockOne` on a new state over the empty database. -/
def stateOne : State :=
  ((newState DB.empty).update blockCollaborators (Updater.ofWrites [.addBlock blockOne])).1

/-! ### The readers of blocks read the tree -/

private theorem decodeTreeKey_tag_b (x : Bytes) : decodeTreeKey (0x62 :: x) = none := by
  simp [decodeTreeKey]

private theorem Represents.get_tag_b {m : Model} {t : KVStore} (h : Represents env m t) (x : Bytes) :
    t.get (0x62 :: x) = none := by
  rw [h, decodeTreeKey_tag_b]
  rfl

/-- Blocks and the transaction index are written to the reference space and read from the tree: along every run
from `NewState`, `GetBlock` and `GetTx` find nothing, whatever blocks `AddBlock` accepted. -/
theorem getBlock_getTx_absent {db : DB} {s : State} {ws calls : List Write} {cs : List (Bytes × State)}
    (hrun : Run env (newState db) s ws calls cs) :
    (∀ height, s.getBlock env height = .ok none) ∧ ∀ txHash, s.getTx env txHash = .ok none := by
  obtain ⟨-, m, hm, -⟩ := run_represents_model env hrun
  refine ⟨fun height => ?_, fun txHash => ?_⟩
  · simp [getBlock, RWTree.get, blockRefKeyFormat, KeyFormat.key, hm.get_tag_b]
  · simp [getTx, RWTree.get, txKeyFormat, KeyFormat.key, hm.get_tag_b]

theorem getBlock_getTx_absent_stateOne :
    Run blockCollaborators (newState DB.empty) stateOne [.addBlock blockOne] [.addBlock blockOne] [([0], stateOne)] ∧
      stateOne.getBlock blockCollaborators blockOne.height = .ok none ∧
      stateOne.getTx blockCollaborators txHashOne = .ok none := by
  have hrun : Run blockCollaborators (newState DB.empty) stateOne [.addBlock blockOne] [.addBlock blockOne]
      [([0], stateOne)] :=
    Run.ok (Updater.ofWrites [.addBlock blockOne]) (@Run.nil blockCollaborators _)
      (show _ = (stateOne, Except.ok [0]) from rfl)
  exact ⟨hrun, (getBlock_getTx_absent blockCollaborators hrun).1 _,
    (getBlock_getTx_absent blockCollaborators hrun).2 _⟩

/-! ### `GetBlocks` -/

private theorem length_view_le (p : Prefix) (M : KVStore) : (view p M).entries.length ≤ M.entries.length :=
  List.length_filterMap_le _ _

/-- The entries `GetBlocks` visits: those of the tag `b` of the reference space between the height segments. -/
def blockRange (s : State) (startHeight endHeight : UInt64) : List (Bytes × Bytes) :=
  (view blockRefKeyFormat.tag (view refsPrefix s.cacheDB.kv)).entries.filter
    fun e => inRange (some (uint64BE startHeight)) (some (uint64BE endHeight)) e.1

/-- `GetBlocks` visits the view of `b` in the view of `r` between the height segments. -/
theorem visits_getBlocks_iterator (s : State) (startHeight endHeight : UInt64) :
    Visits (blockRefKeyFormat.iterator s.refs.iterator (some (blockRefKeyFormat.suffix [uint64BE startHeight]))
      (some (blockRefKeyFormat.suffix [uint64BE endHeight]))) (blockRange s startHeight endHeight) := by
  have h := visits_iterator blockRefKeyFormat.tag _ (PrefixKVStore.visits_iterator s.refs)
    (some (blockRefKeyFormat.suffix [uint64BE startHeight])) (some (blockRefKeyFormat.suffix [uint64BE endHeight]))
  simpa [KeyFormat.suffix] using h

theorem getBlocks_eq_ok_iff (s : State) (startHeight endHeight : UInt64) (L : List BlockExecution) :
    s.getBlocks env startHeight endHeight (fun _ => false) = .ok (L, false, none) ↔
      List.Forall₂ (fun e be => env.block.decode e.2 = .ok be) (blockRange s startHeight endHeight) L := by
  have hlen : (blockRange s startHeight endHeight).length < s.cacheDB.kv.entries.length + 1 := by
    calc _ ≤ _ := List.length_filter_le _ _
      _ ≤ _ := length_view_le _ _
      _ ≤ _ := length_view_le _ _
      _ < _ := Nat.lt_succ_self _
  rw [getBlocks, iterateLoop_visits (readBlock env) (visits_getBlocks_iterator s startHeight endHeight) hlen L]
  simp [readBlock]

/-- `txKeyFormat` shares the tag `b` with `blockRefKeyFormat`: the reference of a transaction whose hash lies
between the height segments is decoded as a block, and `GetBlocks` ends normally only having passed it on. -/
theorem getBlocks_decodes_tx_reference (s : State) {startHeight endHeight : UInt64} {txHash ref : Bytes}
    (href : s.refs.get (txKeyFormat.key [txHash]) = some ref)
    (hrange : uint64BE startHeight ≤ txHash ∧ txHash < uint64BE endHeight) {L : List BlockExecution}
    (hL : s.getBlocks env startHeight endHeight (fun _ => false) = .ok (L, false, none)) :
    ∃ be ∈ L, env.block.decode ref = .ok be := by
  have hmem : (txHash, ref) ∈ blockRange s startHeight endHeight := by
    simp only [refs, PrefixKVStore.get, Prefix.store, Prefix.key_eq, KeyFormat.key, List.flatten, List.append_nil,
      get_eq_some_iff, txKeyFormat, List.singleton_append] at href
    simp [blockRange, mem_view, inRange, hrange, href, blockRefKeyFormat]
  exact forall₂_mem_left ((getBlocks_eq_ok_iff env s startHeight endHeight L).1 hL) hmem

theorem getBlocks_decodes_tx_reference_stateOne :
    stateOne.getBlocks blockCollaborators 1 2 (fun _ => false) =
        .ok ([blockOne, ⟨0x7400000000000000, [⟨[1, 0, 0, 0, 0, 0, 0, 0, 0]⟩]⟩], false, none) ∧
      ∃ be ∈ [blockOne, ⟨0x7400000000000000, [⟨[1, 0, 0, 0, 0, 0, 0, 0, 0]⟩]⟩],
        blockCollaborators.block.decode (txRefKeyFormat.key [uint64BE 1, uint64BE 0]) = .ok be :=
  ⟨rfl, @getBlocks_decodes_tx_reference blockCollaborators stateOne 1 2 txHashOne _ rfl ⟨by decide, by decide⟩ _ rfl⟩

/-! ### `AddBlock` on an error -/

private theorem foldl_addTx_get (s : State) (height : UInt64) (l : List (Nat × TxExecution)) (txHash : Bytes) :
    (l.foldl (fun s (i, txe) => s.addTx txe.txHash height i.toUInt64) s).refs.get (txKeyFormat.key [txHash]) =
      ((l.reverse.find? fun e => e.2.txHash = txHash).map
        fun e => txRefKeyFormat.key [uint64BE height, uint64BE e.1.toUInt64]).or (s.refs.get (txKeyFormat.key [txHash])) := by
  induction l generalizing s with
  | nil => simp
  | cons e l ih =>
    rw [List.foldl_cons, ih, List.reverse_cons, List.find?_append]
    by_cases he : e.2.txHash = txHash <;> cases l.reverse.find? fun e => e.2.txHash = txHash <;>
      simp [addTx, he, Ne.symm]

/-- `AddBlock` is not atomic on an error: it refuses the height and changes nothing, or fails to encode the block
after moving to its height and indexing every transaction under the reference of its last one. -/
theorem addBlock_error_not_atomic (s : State) (be : BlockExecution) {err : GoError}
    (h : (s.addBlock env be).2 = some err) :
    ((s.height > 0 ∧ be.height ≠ s.height + 1) ∧ (s.addBlock env be).1 = s) ∨
    (env.block.encode be = .error err ∧ (s.addBlock env be).1.height = be.height ∧
      ∀ txHash, (s.addBlock env be).1.refs.get (txKeyFormat.key [txHash]) =
        ((be.txExecutions.enum.reverse.find? fun e => e.2.txHash = txHash).map
          fun e => txRefKeyFormat.key [uint64BE be.height, uint64BE e.1.toUInt64]).or
            (s.refs.get (txKeyFormat.key [txHash]))) := by
  by_cases hg : s.height > 0 ∧ be.height ≠ s.height + 1
  · exact .inl ⟨hg, by simp [addBlock, hg]⟩
  · cases henc : env.block.encode be with
    | error e =>
      simp only [addBlock, hg, if_false, henc] at h ⊢
      cases h
      refine .inr ⟨rfl, ?_, fun txHash => foldl_addTx_get _ _ _ txHash⟩
      rw [(foldl_addTx_blockRefsWrite { s with height := be.height } be.height be.txExecutions.enum).eq]
    | ok bs => simp [addBlock, hg, henc] at h

/-- `blockCollaborators` with a block encoder that always fails. -/
def failingBlockCollaborators : Collaborators :=
  { blockCollaborators with block := ⟨fun _ => .error (.error "unsupported block"), blockCollaborators.block.decode⟩ }

theorem addBlock_error_not_atomic_newState :
    ((newState DB.empty).addBlock failingBlockCollaborators blockOne).2 = some (.error "unsupported block") ∧
      (newState DB.empty).height = 0 ∧ ((newState DB.empty).addBlock failingBlockCollaborators blockOne).1.height = 1 ∧
      (newState DB.empty).refs.get (txKeyFormat.key [txHashOne]) = none ∧
      ((newState DB.empty).addBlock failingBlockCollaborators blockOne).1.refs.get (txKeyFormat.key [txHashOne]) =
        some (txRefKeyFormat.key [uint64BE 1, uint64BE 0]) := by
  rcases @addBlock_error_not_atomic failingBlockCollaborators (newState DB.empty) blockOne _ rfl with
    ⟨⟨hpos, -⟩, -⟩ | ⟨-, hh, hidx⟩
  · exact absurd hpos (by decide)
  · exact ⟨rfl, rfl, hh, rfl, by rw [hidx]; rfl⟩

/-! ### Heights -/

def Write.blockHeight : Write → Option UInt64
  | .addBlock be => some be.height
  | _ => none

/-- The heights of the `AddBlock` calls among `ws`, in call order. -/
def acceptedHeights (ws : List Write) : List UInt64 := ws.filterMap Write.blockHeight

/-- The guard of `AddBlock`: after a nonzero height the next one is one more in `uint64`. -/
def NextHeight (last next : UInt64) : Prop := 0 < last → next = last + 1

/-- The heights of a run from `h₀`: a chain of `NextHeight` through the accepted heights to that of `s`. -/
structure HeightsInv (h₀ : UInt64) (ws : List Write) (s : State) : Prop where
  chain : (h₀ :: acceptedHeights ws).Chain' NextHeight
  last : (h₀ :: acceptedHeights ws).getLast? = some s.height

private theorem exec_height (s : State) {w : Write} (hw : w.blockHeight = none) : (w.exec env s).1.height = s.height := by
  cases w with
  | updateAccount account =>
    rcases account with _ | account
    · rfl
    · simp only [Write.exec, State.updateAccount]
      split <;> rfl
  | setStorage => simp only [Write.exec, State.setStorage]; split <;> rfl
  | updateName => simp only [Write.exec, State.updateName]; split <;> rfl
  | addBlock => cases hw
  | _ => rfl

private theorem HeightsInv.of_height_eq {h₀ : UInt64} {ws ws' : List Write} {s s' : State} (h : HeightsInv h₀ ws s)
    (hws : acceptedHeights ws' = acceptedHeights ws) (hs : s'.height = s.height) : HeightsInv h₀ ws' s' :=
  ⟨hws ▸ h.chain, by rw [hws, hs]; exact h.last⟩

private theorem HeightsInv.accept {h₀ : UInt64} {ws : List Write} {s s' : State} (h : HeightsInv h₀ ws s)
    {be : BlockExecution} (hnext : NextHeight s.height be.height) (hs : s'.height = be.height) :
    HeightsInv h₀ (ws ++ [.addBlock be]) s' := by
  have he : h₀ :: acceptedHeights (ws ++ [.addBlock be]) = (h₀ :: acceptedHeights ws) ++ [be.height] := by
    simp [acceptedHeights, Write.blockHeight]
  refine ⟨?_, by rw [he, List.getLast?_concat, hs]⟩
  rw [he]
  refine h.chain.append (List.chain'_singleton _) fun x hx y hy => ?_
  rw [h.last, Option.mem_some_iff] at hx
  rw [List.head?_cons, Option.mem_some_iff] at hy
  exact hx ▸ hy ▸ hnext

section Heights

variable {env}

theorem HeightsInv.exec (henc : ∀ be, ∃ bs, env.block.encode be = .ok bs) {h₀ : UInt64} {ws : List Write}
    {s : State} (h : HeightsInv h₀ ws s) (w : Write) :
    HeightsInv h₀ (ws ++ if (w.exec env s).2.isNone then [w] else []) (w.exec env s).1 := by
  cases w with
  | addBlock be =>
    rcases addBlock_cases env s be with ⟨-, -, hs, herr⟩ | ⟨hg, hw, hok⟩
    · have hc : (s.addBlock env be).2.isNone = false := by
        cases hr : (s.addBlock env be).2 <;> simp_all
      exact h.of_height_eq (by simp [Write.exec, hc]) (by rw [Write.exec, hs])
    · simp only [Write.exec, hok.2 (henc be), Option.isNone_none, if_true]
      exact h.accept (fun hpos => not_not.1 (not_and.1 hg hpos)) (by rw [hw.eq])
  | _ => exact h.of_height_eq (by split <;> simp [acceptedHeights, Write.blockHeight]) (exec_height env s (by rfl))

theorem HeightsInv.run (henc : ∀ be, ∃ bs, env.block.encode be = .ok bs) {h₀ : UInt64} {ws : List Write}
    {s : State} (h : HeightsInv h₀ ws s) (u : Updater) : HeightsInv h₀ (ws ++ (u.run env s).2.2) (u.run env s).1 :=
  Updater.run_induction env (fun s ws => HeightsInv h₀ ws s) (fun _ _ w h => h.exec henc w) u s ws h

private theorem update_height {s s' : State} {u : Updater} {r : Except GoError Bytes} (h : s.update env u = (s', r)) :
    s'.height = (u.run env s).1.height := by
  rcases hr : u.run env s with ⟨s₁, _ | e, ws⟩ <;> simp only [update, hr] at h ⊢
  · rw [← commit_height env s₁, h]
  · rw [(Prod.mk.inj h).1]

theorem run_heightsInv (henc : ∀ be, ∃ bs, env.block.encode be = .ok bs) {s₀ s : State} {ws calls : List Write}
    {cs : List (Bytes × State)} (hrun : Run env s₀ s ws calls cs) : HeightsInv s₀.height ws s := by
  induction hrun with
  | nil => exact ⟨List.chain'_singleton _, rfl⟩
  | ok u _ hu ih => exact (ih.run henc u).of_height_eq rfl (update_height hu)
  | error u _ hu ih => exact (ih.run henc u).of_height_eq rfl (update_height hu)

end Heights

/-- With a block encoder that never fails, along every run from any state, each height `AddBlock` accepts is one
more in `uint64` than the height before it, unless that height is 0. -/
theorem accepted_heights_chain (henc : ∀ be, ∃ bs, env.block.encode be = .ok bs) {s₀ s : State}
    {ws calls : List Write} {cs : List (Bytes × State)} (hrun : Run env s₀ s ws calls cs) :
    (s₀.height :: acceptedHeights ws).Chain' NextHeight :=
  (run_heightsInv henc hrun).chain

/-- An `AddBlock` of a block at height 0, then one at height 5. -/
def zeroFive : List Write := [.addBlock ⟨0, []⟩, .addBlock ⟨5, []⟩]

def stateZeroFive : State := ((newState DB.empty).update blockCollaborators (Updater.ofWrites zeroFive)).1

theorem run_zeroFive :
    Run blockCollaborators (newState DB.empty) stateZeroFive zeroFive zeroFive [([0], stateZeroFive)] :=
  Run.ok (Updater.ofWrites zeroFive) (@Run.nil blockCollaborators _) (show _ = (stateZeroFive, Except.ok [0]) from rfl)

theorem accepted_heights_chain_zeroFive :
    (∀ be, ∃ bs, blockCollaborators.block.encode be = .ok bs) ∧
      ((newState DB.empty).height :: acceptedHeights zeroFive).Chain' NextHeight :=
  ⟨fun _ => ⟨_, rfl⟩, accepted_heights_chain blockCollaborators (fun _ => ⟨_, rfl⟩) run_zeroFive⟩

/-- Over the natural numbers the accepted heights are not consecutive: a run accepts height 0 and then height 5. -/
theorem accepted_heights_zeroFive_not_consecutive :
    ∃ s cs, Run blockCollaborators (newState DB.empty) s zeroFive zeroFive cs ∧
      acceptedHeights zeroFive = [0, 5] ∧
      ¬ (acceptedHeights zeroFive).Chain' fun a b => b.toNat = a.toNat + 1 :=
  ⟨_, _, run_zeroFive, rfl, by rw [show acceptedHeights zeroFive = [0, 5] from rfl, List.chain'_pair]; decide⟩

/-! ### Reloading -/

/-- `LoadState` leaves the height of `NewState`, whatever the `CommitID` recorded, so `AddBlock` accepts any block. -/
theorem loadState_forgets_height {db : DB} {hash : Bytes} {s : State} (h : loadState env db hash = .ok s) :
    s.height = 0 ∧ ∀ be bs, env.block.encode be = .ok bs → (s.addBlock env be).2 = none := by
  have hs : s.height = 0 := by
    simp only [loadState] at h
    obtain ⟨cid, -, h⟩ := except_bind_eq_ok.1 h
    split_ifs at h
    · cases h
    · obtain ⟨-, -, h⟩ := except_bind_eq_ok.1 h
      obtain ⟨t, -, h⟩ := except_bind_eq_ok.1 h
      cases h
      rfl
  exact ⟨hs, fun be bs henc => by simp [addBlock, hs, henc]⟩

theorem loadState_forgets_height_stateOne :
    ((newState DB.empty).update blockCollaborators (Updater.ofWrites [.addBlock blockOne])).2 = .ok [0] ∧
      stateOne.height = 1 ∧ ∃ s, loadState blockCollaborators stateOne.db [0] = .ok s ∧ s.height = 0 ∧
        (s.addBlock blockCollaborators ⟨5, []⟩).2 = none := by
  obtain ⟨s, hs⟩ : ∃ s, loadState blockCollaborators stateOne.db [0] = .ok s := ⟨_, rfl⟩
  exact ⟨rfl, rfl, s, hs, (loadState_forgets_height blockCollaborators hs).1,
    (loadState_forgets_height blockCollaborators hs).2 _ _ rfl⟩

/-! ### `GetTx` -/

/-- `GetTx` trusts the reference it finds under the hash: one to a height with no block dereferences the `nil`
block, and `Scan` of one that does not scan panics. -/
theorem getTx_trusts_reference (s : State) {txHash ref : Bytes}
    (href : s.tree.get (txKeyFormat.key [txHash]) = some ref) (hne : ref ≠ []) :
    (∀ height index, txRefKeyFormat.scanBytes ref = some [height, index] →
      s.getBlock env (getUint64BE height) = .ok none →
      s.getTx env txHash = .error (.panic "runtime error: invalid memory address or nil pointer dereference")) ∧
    (txRefKeyFormat.scanBytes ref = none → ∃ msg, s.getTx env txHash = .error (.panic msg)) := by
  simp only [KeyFormat.key_eq, List.flatten, List.append_nil] at href
  refine ⟨fun height index hscan hblock => ?_, fun hscan => ⟨"KeyFormat.Scan: key does not match format", ?_⟩⟩
  · simp [getTx, href, hne, KeyFormat.mustScan, hscan, hblock]
  · simp [getTx, href, hne, KeyFormat.mustScan, hscan]

/-- A 32-byte transaction hash ending in `b`. -/
def corruptHash (b : UInt8) : Bytes := List.replicate 31 0 ++ [b]

/-- An index of `corruptHash 1` at a height with no block and of `corruptHash 2` at a reference that does not scan. -/
def corruptTree : KVStore :=
  ⟨[(blockRefKeyFormat.key [uint64BE 0], uint64BE 0 ++ [7]),
    (txKeyFormat.key [corruptHash 1], txRefKeyFormat.key [uint64BE 5, uint64BE 0]),
    (txKeyFormat.key [corruptHash 2], [1])], by decide⟩

def corruptDB : DB := ⟨.empty, [(1, [], corruptTree)]⟩

def corruptState : State := { newState corruptDB with tree := ⟨corruptTree, corruptTree, [], 1⟩ }

theorem getTx_trusts_reference_corruptState :
    loadState blockCollaborators corruptDB [0] = .ok corruptState ∧
      corruptState.getTx blockCollaborators (corruptHash 1) =
        .error (.panic "runtime error: invalid memory address or nil pointer dereference") ∧
      ∃ msg, corruptState.getTx blockCollaborators (corruptHash 2) = .error (.panic msg) :=
  ⟨rfl, (@getTx_trusts_reference blockCollaborators corruptState (corruptHash 1) _ rfl (by decide)).1 _ _ rfl rfl,
    (@getTx_trusts_reference blockCollaborators corruptState (corruptHash 2) _ rfl (by decide)).2 rfl⟩

end BurrowState
