import Bytecode.Proofs.LoadGate

/-!
# Refused calls

Before a call executes anything, the machine looks at the name, at the number of arguments, at two
tables of functions and at the depth, and may refuse it for five reasons (`Machine.Refuses`). Host
code learns the reason from the failure. So it must be able to rely on it: a call fails in one of
these five ways only if it was itself refused, never because of a failure further in, which a callee
may have passed on. A callee's failure always comes back as a trap or under the name of the host
function (`callReturns_iff_refuses`).

A refused call is over in a single step (`exists_refusesCall`). Every operation of host code and
every instruction takes a step of its own, so nothing has been executed.
-/

namespace Bytecode

variable {ν : Type}

/-! ## What a name stands for -/

/-- The number of arguments of the function that a name stands for: the host function of this name,
or else the function of the loaded chunk. -/
def Machine.arity? (m : Machine ν) (name : String) : Option Nat :=
  match m.hosts.get? name with
  | some function => some function.arity
  | none => m.chunk.bind fun chunk ↦ (chunk.function? name).map fun f ↦ f.arity.toNat

theorem HostRegistry.contains_eq_isSome_get? (hosts : HostRegistry ν) (name : String) :
    hosts.contains name = (hosts.get? name).isSome :=
  Std.HashMap.contains_eq_isSome_getElem?

theorem HostRegistry.contains_of_get? {hosts : HostRegistry ν} {name : String}
    {function : HostFunction ν} (h : hosts.get? name = some function) :
    hosts.contains name = true := by
  rw [contains_eq_isSome_get?, h, Option.isSome_some]

theorem Chunk.function?_eq_bind (chunk : Chunk) (name : String) :
    chunk.function? name = (chunk.functionIndex? name).bind fun index ↦ chunk.functions[index]? :=
  Array.find?_eq_bind_findIdx?_getElem?

/-- The function that is found by its index is the one that is found by its name. -/
theorem Chunk.arity_function? {chunk : Chunk} {name : String} {index : Nat}
    (h : chunk.functionIndex? name = some index) :
    (chunk.function? name).map (fun f ↦ f.arity.toNat) = some (chunk.functionArity index) := by
  obtain ⟨hlt, -⟩ := Array.findIdx?_eq_some_iff_getElem.mp h
  have hget := Array.getElem?_eq_getElem hlt
  rw [function?_eq_bind, h, Option.bind_some, functionArity, hget, Option.map_some]

theorem Chunk.function?_eq_none {chunk : Chunk} {name : String}
    (h : chunk.functionIndex? name = none) : chunk.function? name = none := by
  rw [function?_eq_bind, h, Option.bind_none]

/-! ## Reasons -/

/-- Why a call is refused, ending in the failure that says so. Each reason presupposes that those
before it do not apply. -/
inductive Machine.Refuses (m : Machine ν) (name : String) (arguments : Nat) : Failure → Prop where
  | emptyName (hname : name = "") : m.Refuses name arguments (.emptyName .function)
  | notEnoughArguments (hname : name ≠ "") (h : m.stack.height < arguments) :
    m.Refuses name arguments (.notEnoughArguments arguments m.stack.height)
  | functionNotFound (hname : name ≠ "") (hfits : arguments ≤ m.stack.height)
    (h : m.hasFunction name = false) : m.Refuses name arguments (.functionNotFound name)
  | arityMismatch {expected : Nat} (hname : name ≠ "") (hfits : arguments ≤ m.stack.height)
    (harity : m.arity? name = some expected) (h : expected ≠ arguments) :
    m.Refuses name arguments (.arityMismatch name expected arguments)
  | callDepthExceeded (hname : name ≠ "") (hfits : arguments ≤ m.stack.height)
    (harity : m.arity? name = some arguments) (hhost : m.hosts.contains name = true)
    (h : m.limits.callDepth ≤ m.depth) :
    m.Refuses name arguments (.callDepthExceeded m.limits.callDepth)

/-- Whether a failure is one with which calls are refused. -/
def Failure.isRefusal : Failure → Bool
  | .emptyName _ | .notEnoughArguments _ _ | .functionNotFound _ | .arityMismatch _ _ _
  | .callDepthExceeded _ => true
  | _ => false

section Dispatch

variable {m : Machine ν} {name : String} {arguments : Nat}

/-- The two tables are consulted alike by the question whether there is a function and by a call. -/
theorem Machine.hasFunction_eq_isSome_arity? (m : Machine ν) (name : String) :
    m.hasFunction name = (m.arity? name).isSome := by
  rw [hasFunction, HostRegistry.contains_eq_isSome_get?, arity?]
  cases m.hosts.get? name with
  | some function => rfl
  | none =>
    cases m.chunk with
    | none => rfl
    | some chunk =>
      change (chunk.functionIndex? name).isSome = _
      cases hindex : chunk.functionIndex? name with
      | none => simp [Chunk.function?_eq_none hindex]
      | some index => simp only [Option.bind_some, Chunk.arity_function? hindex, Option.isSome_some]

/-- What a name stands for in a call that is let through. -/
def Machine.StandsFor (m : Machine ν) (name : String) : Callee ν → Prop
  | .host function => m.hosts.get? name = some function
  | .code chunk index => m.hosts.get? name = none ∧ m.chunk = some chunk ∧
    chunk.functionIndex? name = some index

/-- The function that a call means, or else a reason to refuse the call. -/
inductive Machine.Dispatched (m : Machine ν) (name : String) (arguments : Nat) :
    Except Failure (Callee ν) → Prop where
  | error {failure : Failure} (h : m.Refuses name arguments failure) :
    m.Dispatched name arguments (.error failure)
  | ok {callee : Callee ν} (hname : name ≠ "") (hfits : arguments ≤ m.stack.height)
    (harity : m.arity? name = some arguments) (hcallee : m.StandsFor name callee) :
    m.Dispatched name arguments (.ok callee)

theorem Machine.dispatched_dispatch (m : Machine ν) (name : String) (arguments : Nat) :
    m.Dispatched name arguments (m.dispatch name arguments) := by
  rw [dispatch]
  by_cases hname : name = ""
  · rw [if_pos hname]
    exact .error (.emptyName hname)
  rw [if_neg hname]
  by_cases hheight : m.stack.height < arguments
  · rw [if_pos hheight]
    exact .error (.notEnoughArguments hname hheight)
  rw [if_neg hheight]
  have hfits := Nat.le_of_not_lt hheight
  have hfound := m.hasFunction_eq_isSome_arity? name
  cases hget : m.hosts.get? name with
  | some function =>
    have harity : m.arity? name = some function.arity := by rw [arity?, hget]
    dsimp only
    by_cases hsame : function.arity = arguments
    · rw [if_pos hsame]
      exact .ok hname hfits (hsame ▸ harity) hget
    · rw [if_neg hsame]
      exact .error (.arityMismatch hname hfits harity hsame)
  | none =>
    dsimp only
    cases hchunk : m.chunk with
    | none =>
      have harity : m.arity? name = none := by rw [arity?, hget, hchunk]; rfl
      rw [harity] at hfound
      exact .error (.functionNotFound hname hfits hfound)
    | some chunk =>
      dsimp only
      cases hindex : chunk.functionIndex? name with
      | none =>
        have harity : m.arity? name = none := by
          rw [arity?, hget, hchunk]
          simp [Chunk.function?_eq_none hindex]
        rw [harity] at hfound
        exact .error (.functionNotFound hname hfits hfound)
      | some index =>
        have harity : m.arity? name = some (chunk.functionArity index) := by
          rw [arity?, hget, hchunk]
          exact Chunk.arity_function? hindex
        dsimp only
        by_cases hsame : chunk.functionArity index = arguments
        · rw [if_pos hsame]
          exact .ok hname hfits (hsame ▸ harity) ⟨hget, hchunk, hindex⟩
        · rw [if_neg hsame]
          exact .error (.arityMismatch hname hfits harity hsame)

/-- A call that is let through is refused, if at all, because of the depth. -/
theorem Machine.Refuses.eq_callDepthExceeded {failure : Failure}
    (h : m.Refuses name arguments failure) (hname : name ≠ "")
    (hfits : arguments ≤ m.stack.height) (harity : m.arity? name = some arguments) :
    m.hosts.contains name = true ∧ m.limits.callDepth ≤ m.depth ∧
      failure = .callDepthExceeded m.limits.callDepth := by
  have hfound := m.hasFunction_eq_isSome_arity? name
  cases h with
  | emptyName => contradiction
  | notEnoughArguments => omega
  | functionNotFound _ _ hnone => simp [hnone, harity] at hfound
  | arityMismatch _ _ harity' hne =>
    exact absurd (Option.some.inj (harity'.symm.trans harity)) hne
  | callDepthExceeded _ _ _ hhost hdepth => exact ⟨hhost, hdepth, rfl⟩

/-- There is never more than one reason. -/
theorem Machine.Refuses.unique {failure failure' : Failure} (h : m.Refuses name arguments failure)
    (h' : m.Refuses name arguments failure') : failure' = failure := by
  have hfound := m.hasFunction_eq_isSome_arity? name
  cases h with
  | emptyName hname =>
    cases h' with
    | emptyName => rfl
    | _ => contradiction
  | notEnoughArguments hname hheight =>
    cases h' with
    | emptyName => contradiction
    | notEnoughArguments => rfl
    | _ => omega
  | functionNotFound hname hfits hnone =>
    cases h' with
    | emptyName => contradiction
    | notEnoughArguments => omega
    | functionNotFound => rfl
    | arityMismatch _ _ harity | callDepthExceeded _ _ harity => simp [hnone, harity] at hfound
  | arityMismatch hname hfits harity hne =>
    cases h' with
    | emptyName => contradiction
    | notEnoughArguments => omega
    | functionNotFound _ _ hnone => simp [hnone, harity] at hfound
    | arityMismatch _ _ harity' =>
      cases harity.symm.trans harity'
      rfl
    | callDepthExceeded _ _ harity' =>
      exact absurd (Option.some.inj (harity.symm.trans harity')) hne
  | callDepthExceeded hname hfits harity =>
    exact (h'.eq_callDepthExceeded hname hfits harity).2.2

namespace Machine

variable (m name arguments)

theorem refuses_emptyName_iff :
    (∃ use, m.Refuses name arguments (.emptyName use)) ↔ name = "" := by
  constructor
  · rintro ⟨_, ⟨hname⟩⟩
    exact hname
  · intro hname
    exact ⟨_, .emptyName hname⟩

theorem refuses_notEnoughArguments_iff :
    (∃ requested available,
      m.Refuses name arguments (.notEnoughArguments requested available)) ↔
      name ≠ "" ∧ m.stack.height < arguments := by
  constructor
  · rintro ⟨_, _, _ | ⟨hname, hheight⟩⟩
    exact ⟨hname, hheight⟩
  · rintro ⟨hname, hheight⟩
    exact ⟨_, _, .notEnoughArguments hname hheight⟩

theorem refuses_functionNotFound_iff :
    (∃ missing, m.Refuses name arguments (.functionNotFound missing)) ↔
      name ≠ "" ∧ arguments ≤ m.stack.height ∧ m.hasFunction name = false := by
  constructor
  · rintro ⟨_, _ | _ | ⟨hname, hfits, hnone⟩⟩
    exact ⟨hname, hfits, hnone⟩
  · rintro ⟨hname, hfits, hnone⟩
    exact ⟨_, .functionNotFound hname hfits hnone⟩

theorem refuses_arityMismatch_iff :
    (∃ called expected found,
      m.Refuses name arguments (.arityMismatch called expected found)) ↔
      name ≠ "" ∧ arguments ≤ m.stack.height ∧ m.hasFunction name = true ∧
        m.arity? name ≠ some arguments := by
  rw [hasFunction_eq_isSome_arity?]
  constructor
  · rintro ⟨_, _, _, _ | _ | _ | ⟨hname, hfits, harity, hne⟩⟩
    rw [harity]
    exact ⟨hname, hfits, rfl, fun hsame ↦ hne (Option.some.inj hsame)⟩
  · rintro ⟨hname, hfits, hsome, hne⟩
    obtain ⟨expected, harity⟩ := Option.isSome_iff_exists.mp hsome
    have hexpected : expected ≠ arguments := fun hsame ↦ hne (hsame ▸ harity)
    exact ⟨_, _, _, .arityMismatch hname hfits harity hexpected⟩

theorem refuses_callDepthExceeded_iff :
    (∃ limit, m.Refuses name arguments (.callDepthExceeded limit)) ↔
      name ≠ "" ∧ arguments ≤ m.stack.height ∧ m.hasFunction name = true ∧
        m.arity? name = some arguments ∧ m.hosts.contains name = true ∧
        m.limits.callDepth ≤ m.depth := by
  rw [hasFunction_eq_isSome_arity?]
  constructor
  · rintro ⟨_, _ | _ | _ | _ | ⟨hname, hfits, harity, hhost, hdepth⟩⟩
    rw [harity]
    exact ⟨hname, hfits, rfl, rfl, hhost, hdepth⟩
  · rintro ⟨hname, hfits, -, harity, hhost, hdepth⟩
    exact ⟨_, .callDepthExceeded hname hfits harity hhost hdepth⟩

end Machine

end Dispatch

/-! ## Calls -/

section Calls

variable {w w' : World ν} {name : String} {arguments : Nat} {failure : Failure}

/-- A step leads from the call straight back to the code that made it, and of the machine only the
error state has changed. -/
structure World.RefusesCall (w : World ν) (name : String) (arguments : Nat) (failure : Failure)
    (w' : World ν) : Prop where
  step (resume : Reply → HostProgram ν) (calls : List (HostCall ν)) :
    Config.step ⟨w, .host (.call name arguments resume), calls⟩
      = .more ⟨w', .host (resume (.error failure)), calls⟩
  machine : w'.machine = { w.machine with errors := w'.machine.errors }
  files : w'.files = w.files

theorem exists_refusesCall (h : w.machine.Refuses name arguments failure) :
    ∃ w', w.RefusesCall name arguments failure w' := by
  have hdispatched := w.machine.dispatched_dispatch name arguments
  cases hdispatch : w.machine.dispatch name arguments with
  | error other =>
    rw [hdispatch] at hdispatched
    obtain ⟨hother⟩ := hdispatched
    cases h.unique hother
    refine ⟨(w.fail failure).2, fun resume calls ↦ ?_, rfl, rfl⟩
    simp only [Config.step, Config.hostStep, Config.call, hdispatch]
    rfl
  | ok callee =>
    rw [hdispatch] at hdispatched
    obtain _ | ⟨hname, hfits, harity, hcallee⟩ := hdispatched
    obtain ⟨hhost, hdepth, rfl⟩ := h.eq_callDepthExceeded hname hfits harity
    cases callee with
    | code chunk index =>
      rw [HostRegistry.contains_eq_isSome_get?, hcallee.1] at hhost
      cases hhost
    | host function =>
      refine ⟨((w.log (.hostCalled name arguments)).fail
        (.callDepthExceeded w.machine.limits.callDepth)).2, fun resume calls ↦ ?_, rfl, rfl⟩
      simp only [Config.step, Config.hostStep, Config.call, hdispatch]
      exact congrArg Progress.more (if_pos hdepth)

theorem World.RefusesCall.callReturns (h : w.RefusesCall name arguments failure w') :
    w.CallReturns name arguments (.error failure) w' :=
  fun resume calls ↦ .step (h.step resume calls)

open Separate in
/-- What comes back from a callee is never a failure with which calls are refused. -/
theorem refuses_of_callReturns (hbase : w.machine.stack.base ≤ w.machine.stack.values.size)
    (hrefusal : failure.isRefusal = true)
    (h : w.CallReturns name arguments (.error failure) w') :
    w.machine.Refuses name arguments failure := by
  have hdispatched := w.machine.dispatched_dispatch name arguments
  cases hdispatch : w.machine.dispatch name arguments with
  | error other =>
    rw [hdispatch] at hdispatched
    obtain ⟨hother⟩ := hdispatched
    obtain ⟨hreply, -⟩ := callReturns_of_dispatch_error hdispatch h
    cases hreply
    exact hother
  | ok callee =>
    rw [hdispatch] at hdispatched
    obtain _ | ⟨hname, hfits, harity, hcallee⟩ := hdispatched
    obtain ⟨s, below, passed, base, depth, hbelow, rfl, rfl⟩ := exists_arguments hbase hfits
    cases callee with
    | code chunk index =>
      obtain ⟨s', outcome, -, hreply, -⟩ := (callReturns_code_iff hbelow hdispatch).mp h
      cases outcome with
      | ok value => cases hreply
      | error trap =>
        cases hreply
        cases hrefusal
    | host function =>
      by_cases hdepth : s.limits.callDepth ≤ depth
      · obtain ⟨hreply, -⟩ := callReturns_of_depth_exceeded hdispatch hdepth h
        cases hreply
        have hcontains := HostRegistry.contains_of_get? hcallee
        exact .callDepthExceeded hname hfits harity hcontains hdepth
      · obtain ⟨s', status, window, -, hreply, -⟩ :=
          (callReturns_host_iff hbelow hdispatch hdepth).mp h
        rw [hostReply] at hreply
        split at hreply
        · cases hreply
        · cases hreply
          cases hrefusal

/-- A call fails in one of the five ways just if there is this reason to refuse it. -/
theorem callReturns_iff_refuses (hbase : w.machine.stack.base ≤ w.machine.stack.values.size)
    (hrefusal : failure.isRefusal = true) :
    (∃ w', w.CallReturns name arguments (.error failure) w') ↔
      w.machine.Refuses name arguments failure := by
  constructor
  · rintro ⟨w', h⟩
    exact refuses_of_callReturns hbase hrefusal h
  · intro h
    obtain ⟨w', hrefused⟩ := exists_refusesCall h
    exact ⟨w', hrefused.callReturns⟩

/-- The configuration in which a callee begins. -/
def Config.begin (w : World ν) (calls : List (HostCall ν)) (name : String) (arguments : Nat)
    (resume : Reply → HostProgram ν) : Callee ν → Config ν
  | .host function =>
    Config.openCall (w.log (.hostCalled name arguments)) calls name function arguments
      (.program resume)
  | .code chunk index => Config.callCode w calls name chunk index arguments resume

/-- Without a reason to refuse it, a call begins what its name stands for. -/
theorem exists_begin_of_not_refuses
    (h : ∀ failure, ¬w.machine.Refuses name arguments failure) :
    ∃ callee, w.machine.StandsFor name callee ∧ ∀ resume calls,
      Config.step ⟨w, .host (.call name arguments resume), calls⟩
        = .more (Config.begin w calls name arguments resume callee) := by
  have hdispatched := w.machine.dispatched_dispatch name arguments
  cases hdispatch : w.machine.dispatch name arguments with
  | error failure =>
    rw [hdispatch] at hdispatched
    obtain ⟨hfailure⟩ := hdispatched
    exact absurd hfailure (h failure)
  | ok callee =>
    rw [hdispatch] at hdispatched
    obtain _ | ⟨hname, hfits, harity, hcallee⟩ := hdispatched
    refine ⟨callee, hcallee, fun resume calls ↦ ?_⟩
    simp only [Config.step, Config.hostStep, Config.call, hdispatch]
    cases callee with
    | code chunk index => rfl
    | host function =>
      have hcontains := HostRegistry.contains_of_get? hcallee
      have hdepth : ¬w.machine.limits.callDepth ≤ w.machine.depth :=
        fun hdepth ↦ h _ (.callDepthExceeded hname hfits harity hcontains hdepth)
      exact congrArg Progress.more (if_neg hdepth)

end Calls

/-- Refusals of calls are exact. In every state that embedding code can bring about, inside host
functions included, a call fails in one of five ways just if there is this reason to refuse it, and
then nothing of the machine but its error state has changed and nothing has been executed. Every
other call begins the host function of that name, or without one the function of the loaded
chunk. -/
theorem call_refusals_are_exact {w : World ν} {program : HostProgram ν} {calls : List (HostCall ν)}
    (hreach : Config.Reachable ⟨w, .host program, calls⟩) (name : String) (arguments : Nat) :
    let m := w.machine
    let fails (failure : Failure) := ∃ w', w.CallReturns name arguments (.error failure) w'
    ((∃ use, fails (.emptyName use)) ↔ name = "") ∧
    ((∃ requested available, fails (.notEnoughArguments requested available)) ↔
      name ≠ "" ∧ m.stack.height < arguments) ∧
    ((∃ missing, fails (.functionNotFound missing)) ↔
      name ≠ "" ∧ arguments ≤ m.stack.height ∧ m.hasFunction name = false) ∧
    ((∃ called expected found, fails (.arityMismatch called expected found)) ↔
      name ≠ "" ∧ arguments ≤ m.stack.height ∧ m.hasFunction name = true ∧
        m.arity? name ≠ some arguments) ∧
    ((∃ limit, fails (.callDepthExceeded limit)) ↔
      name ≠ "" ∧ arguments ≤ m.stack.height ∧ m.hasFunction name = true ∧
        m.arity? name = some arguments ∧ m.hosts.contains name = true ∧
        m.limits.callDepth ≤ m.depth) ∧
    (∀ failure w', failure.isRefusal = true → w.CallReturns name arguments (.error failure) w' →
      m.Refuses name arguments failure ∧ w.RefusesCall name arguments failure w') ∧
    ((∀ failure, failure.isRefusal = true → ¬fails failure) →
      ∃ callee, m.StandsFor name callee ∧ ∀ resume calls,
        Config.step ⟨w, .host (.call name arguments resume), calls⟩
          = .more (Config.begin w calls name arguments resume callee)) := by
  intro m fails
  have hbase := Separate.base_le_of_reachable hreach
  have hfails : ∀ failure, failure.isRefusal = true →
      (fails failure ↔ m.Refuses name arguments failure) :=
    fun failure hrefusal ↦ callReturns_iff_refuses hbase hrefusal
  refine ⟨?_, ?_, ?_, ?_, ?_, ?_, ?_⟩
  · rw [← m.refuses_emptyName_iff name arguments]
    exact exists_congr fun use ↦ hfails _ rfl
  · rw [← m.refuses_notEnoughArguments_iff name arguments]
    exact exists_congr fun requested ↦ exists_congr fun available ↦ hfails _ rfl
  · rw [← m.refuses_functionNotFound_iff name arguments]
    exact exists_congr fun missing ↦ hfails _ rfl
  · rw [← m.refuses_arityMismatch_iff name arguments]
    exact exists_congr fun called ↦ exists_congr fun expected ↦ exists_congr fun found ↦
      hfails _ rfl
  · rw [← m.refuses_callDepthExceeded_iff name arguments]
    exact exists_congr fun limit ↦ hfails _ rfl
  · intro failure w' hrefusal hreturn
    have hreason := refuses_of_callReturns hbase hrefusal hreturn
    obtain ⟨w'', hrefused⟩ := exists_refusesCall hreason
    obtain ⟨-, rfl⟩ := hreturn.unique hrefused.callReturns
    exact ⟨hreason, hrefused⟩
  · intro hnone
    apply exists_begin_of_not_refuses
    intro failure hreason
    have hrefusal : failure.isRefusal = true := by cases hreason <;> rfl
    exact hnone failure hrefusal ((hfails failure hrefusal).mpr hreason)

/-! ## A host function that shadows a bytecode function -/

namespace Shadowing

/-- A host function with the name of the loaded function `ask`. -/
def shadow : HostFunction Empty :=
  ⟨0, .done .ok⟩

def hosts : HostRegistry Empty :=
  HostRegistry.register {} "ask" shadow

/-- The machine where a function of the chunk and a host function are called `ask`, and no call may
be made. -/
def world : World Empty :=
  ⟨{ chunk := some Answering.chunk, hosts, limits := { callDepth := 0 } }, {},
    #[.logged (.loaded 1 1 false), .logged (.registered "ask" 0 false)]⟩

theorem reachable : Config.Reachable ⟨world, .host (.done .ok), []⟩ := by
  let program : HostProgram Empty := .act (.load Answering.chunk.encode) fun _ ↦
    .register "ask" 0 shadow.body fun _ ↦ .done .ok
  have hstart : Config.Reachable (.start ⟨{ limits := { callDepth := 0 } }, {}, #[]⟩ program) :=
    .fresh { callDepth := 0 } {} #[] program
  have hloaded := hstart.step (step_load Answering.loadable _ _ _)
  refine hloaded.step ?_
  simp [Config.step, Config.hostStep, World.register, World.install, World.log,
    HostRegistry.contains, world, hosts, shadow, Answering.chunk]

theorem get?_hosts : world.machine.hosts.get? "ask" = some shadow := by
  simp [world, hosts, HostRegistry.get?, HostRegistry.register]

theorem arity?_world : world.machine.arity? "ask" = some 0 := by
  rw [Machine.arity?, get?_hosts]
  rfl

end Shadowing

theorem call_refusals_are_exact_shadowing :
    Config.Reachable ⟨Shadowing.world, .host (.done .ok), []⟩ ∧
      ∃ limit w', Shadowing.world.CallReturns "ask" 0 (.error (.callDepthExceeded limit)) w' ∧
        Shadowing.world.RefusesCall "ask" 0 (.callDepthExceeded limit) w' := by
  obtain ⟨-, -, -, -, hdepth, hunchanged, -⟩ :=
    call_refusals_are_exact Shadowing.reachable "ask" 0
  have hcontains := HostRegistry.contains_of_get? Shadowing.get?_hosts
  have hfound : Shadowing.world.machine.hasFunction "ask" = true := by
    rw [Machine.hasFunction_eq_isSome_arity?, Shadowing.arity?_world]
    rfl
  obtain ⟨limit, w', hreturn⟩ :=
    hdepth.mpr ⟨by decide, by decide, hfound, Shadowing.arity?_world, hcontains, by decide⟩
  exact ⟨Shadowing.reachable, limit, w', hreturn, (hunchanged _ w' rfl hreturn).2⟩

end Bytecode
