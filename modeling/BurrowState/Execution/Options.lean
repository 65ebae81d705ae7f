import BurrowState.Storage.Bytes

/-!
# Execution options

`ExecutionConfig.ExecutionOptions` (config.go) turns the VM options named in the configuration into the options of
the executor: each name must be `DebugOpcodes` or `DumpTokens`, the first other one is an error naming it, and
otherwise one option sets the named VM options, then the stack options (`executionOptions_eq`).  The default
configuration passes (`executionOptions_default`).
-/

namespace BurrowState

/-- `execution.VMOption`: the name of a VM option. -/
abbrev VMOption := String

def debugOpcodes : VMOption := "DebugOpcodes"

def dumpTokens : VMOption := "DumpTokens"

/-- `ExecutionConfig`, with the fields `ExecutionOptions` reads. -/
structure ExecutionConfig where
  callStackMaxDepth : UInt64
  dataStackInitialCapacity : UInt64
  dataStackMaxDepth : UInt64
  vmOptions : List VMOption
  deriving DecidableEq

/-- `DefaultExecutionConfig`: unlimited stacks, `evm.DataStackInitialCapacity` (not in the repository), no VM options.
-/
def defaultExecutionConfig (evmDataStackInitialCapacity : UInt64) : ExecutionConfig :=
  ⟨0, evmDataStackInitialCapacity, 0, []⟩

/-- The options of `evm.VM` that `ExecutionOptions` passes on: `DebugOpcodes`, `DumpTokens` and `StackOptions`. -/
inductive VMFn where
  | debugOpcodes
  | dumpTokens
  | stackOptions (callStackMaxDepth dataStackInitialCapacity dataStackMaxDepth : UInt64)
  deriving DecidableEq

inductive ExecutionOption where
  | vmOptions (vmOptions : List VMFn)
  deriving DecidableEq

/-- The `switch` of `ExecutionOptions` on one name: the VM option it stands for, if it is one of the two. -/
def vmOptionFn (option : VMOption) : Option VMFn :=
  if option = debugOpcodes then some .debugOpcodes
  else if option = dumpTokens then some .dumpTokens
  else none

/-- The error of `ExecutionOptions` on a name it does not know, `fmt.Errorf("VM option '%s' not recognised")`. -/
def notRecognised (option : VMOption) : GoError := .error ("VM option \x27" ++ option ++ "\x27 not recognised")

/-- The loop of `ExecutionOptions` over the configured names, appending the VM option of each. -/
def collectVMOptions : List VMOption → List VMFn → Except GoError (List VMFn)
  | [], vmOptions => .ok vmOptions
  | option :: options, vmOptions =>
    match vmOptionFn option with
    | some fn => collectVMOptions options (vmOptions ++ [fn])
    | none => .error (notRecognised option)

/-- `ExecutionConfig.ExecutionOptions`. -/
def ExecutionConfig.executionOptions (ec : ExecutionConfig) : Except GoError (List ExecutionOption) := do
  let vmOptions ← collectVMOptions ec.vmOptions []
  let vmOptions := vmOptions ++ [.stackOptions ec.callStackMaxDepth ec.dataStackInitialCapacity ec.dataStackMaxDepth]
  pure [.vmOptions vmOptions]

theorem collectVMOptions_eq (options : List VMOption) (acc : List VMFn) :
    collectVMOptions options acc =
      match options.find? fun o => (vmOptionFn o).isNone with
      | some o => .error (notRecognised o)
      | none => .ok (acc ++ options.filterMap vmOptionFn) := by
  induction options generalizing acc with
  | nil => simp [collectVMOptions]
  | cons option options ih =>
    cases h : vmOptionFn option with
    | none => simp [collectVMOptions, h]
    | some fn => simp [collectVMOptions, h, ih]

/-- `ExecutionOptions` accepts a configuration iff each VM option is `DebugOpcodes` or `DumpTokens`, and then
returns one option setting those, in order, and the stack options of its three limits; otherwise it fails with the
error naming the first other option. -/
theorem executionOptions_eq (ec : ExecutionConfig) :
    ec.executionOptions =
      match ec.vmOptions.find? fun o => (vmOptionFn o).isNone with
      | some o => .error (notRecognised o)
      | none => .ok [.vmOptions (ec.vmOptions.filterMap vmOptionFn ++
          [.stackOptions ec.callStackMaxDepth ec.dataStackInitialCapacity ec.dataStackMaxDepth])] := by
  rw [ExecutionConfig.executionOptions, collectVMOptions_eq]
  cases ec.vmOptions.find? fun o => (vmOptionFn o).isNone <;> rfl

/-- The default configuration passes its own check. -/
theorem executionOptions_default (evmDataStackInitialCapacity : UInt64) :
    (defaultExecutionConfig evmDataStackInitialCapacity).executionOptions =
      .ok [.vmOptions [.stackOptions 0 evmDataStackInitialCapacity 0]] := rfl

end BurrowState
