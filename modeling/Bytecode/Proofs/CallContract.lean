import Bytecode.Proofs.Separate.Lockstep

/-!
# What a call leaves behind

The stack contract between a caller and what it calls, for every call that host code makes: from
outside, from inside a host function, and whatever the callee does, including further calls.

The arguments are taken off the stack. What takes their place depends on what was called and on how
it ended, and on nothing else; below the arguments nothing changes, and neither do the caller's
window and the number of live calls.

The callee runs on a machine of its own (`codeMachine`, `hostMachine`), to which the values below
the arguments, the base and the depth belong only as numbers. They come back unchanged because they
are never handed over, and there is no exit on which they would have to be restored.
-/

namespace Bytecode

variable {ν : Type}

/-- The values `after` a call with the values `before` it, where `kept` are those below the
arguments. A failure that is neither a trap nor a host function's own means that nothing was
executed. -/
def LeavesStack (callee : Except Failure (Callee ν)) (before kept after : List Value)
    (reply : Reply) : Prop :=
  match callee, reply with
  | .ok (.code _ _), .ok () => ∃ value, after = kept ++ [value]
  | .ok (.code _ _), .error (.trapped _) => after = kept
  | .ok (.host _), .ok () => ∃ values, after = kept ++ values
  | .ok (.host _), .error (.hostFailed _ _) => ∃ values, after = kept ++ values
  | _, .ok () | _, .error (.trapped _) | _, .error (.hostFailed _ _) => False
  | _, .error _ => after = before

open Separate

/-- Every call that returns keeps the stack contract. -/
theorem call_keeps_stack_contract {w w' : World ν} {program : HostProgram ν}
    {calls : List (HostCall ν)} {name : String} {arguments : Nat} {reply : Reply}
    (hreach : Config.Reachable ⟨w, .host program, calls⟩)
    (hreturn : w.CallReturns name arguments reply w') :
    let before := w.machine.stack.values.toList
    let kept := before.take (before.length - arguments)
    let after := w'.machine.stack.values.toList
    LeavesStack (w.machine.dispatch name arguments) before kept after reply ∧ kept <+: after ∧
      w'.machine.stack.base = w.machine.stack.base ∧ w'.machine.depth = w.machine.depth := by
  intro before kept after
  cases hdispatch : w.machine.dispatch name arguments with
  | error failure =>
    obtain ⟨rfl, rfl⟩ := callReturns_of_dispatch_error hdispatch hreturn
    obtain ⟨htrapped, hhost⟩ := dispatch_error hdispatch
    refine ⟨?_, List.take_prefix _ _, rfl, rfl⟩
    cases failure with
    | trapped trap => exact absurd rfl (htrapped trap)
    | hostFailed host status => exact absurd rfl (hhost host status)
    | _ => rfl
  | ok callee =>
    obtain ⟨s, below, passed, base, depth, hbase, rfl, rfl⟩ :=
      exists_arguments (base_le_of_reachable hreach) (dispatch_ok hdispatch).1
    have hkept : kept = below := by simp [kept, before]
    rw [hkept]
    cases callee with
    | code chunk index =>
      obtain ⟨s', outcome, -, rfl, rfl⟩ := (callReturns_code_iff hbase hdispatch).mp hreturn
      cases outcome with
      | ok value => exact ⟨⟨value, rfl⟩, List.prefix_append _ _, rfl, rfl⟩
      | error trap => exact ⟨rfl, List.prefix_refl _, rfl, rfl⟩
    | host function =>
      by_cases hdepth : s.limits.callDepth ≤ depth
      · obtain ⟨rfl, rfl⟩ := callReturns_of_depth_exceeded hdispatch hdepth hreturn
        exact ⟨rfl, List.prefix_append _ _, rfl, rfl⟩
      · obtain ⟨s', status, window, -, rfl, rfl⟩ :=
          (callReturns_host_iff hbase hdispatch hdepth).mp hreturn
        refine ⟨?_, List.prefix_append _ _, rfl, rfl⟩
        rw [hostReply]
        cases status.isOk
        · exact ⟨window, rfl⟩
        · exact ⟨window, rfl⟩

/-! ## A call inside a host function -/

namespace Nested

/-- A host function that leaves its argument and one more value. -/
def inner : HostFunction Empty :=
  ⟨1, .act (.push .null) fun _ ↦ .done .ok⟩

/-- The body of a host function that calls `inner` with one of two values. -/
def body : HostProgram Empty :=
  .act (.push (.bool true)) fun _ ↦ .act (.push (.bool false)) fun _ ↦
    .call "inner" 1 fun _ ↦ .done .ok

def hosts : HostRegistry Empty :=
  (HostRegistry.register {} "inner" inner).register "outer" ⟨0, body⟩

def journal : Array (Event Empty) :=
  #[.logged (.registered "inner" 1 false), .logged (.registered "outer" 0 false),
    .logged (.hostCalled "outer" 0)]

/-- The machine while `outer` executes, with two values in its window. -/
def world : World Empty :=
  ⟨{ stack := ⟨#[.bool true, .bool false], 0⟩, hosts, depth := 1 }, {}, journal⟩

theorem get?_inner : hosts.get? "inner" = some inner := by
  simp only [hosts, HostRegistry.get?, HostRegistry.register]
  rw [Std.HashMap.getElem?_insert, if_neg (by decide), Std.HashMap.getElem?_insert_self]

theorem get?_outer : hosts.get? "outer" = some ⟨0, body⟩ := by
  simp [hosts, HostRegistry.get?, HostRegistry.register]

theorem reachable : Config.Reachable ⟨world, .host (.call "inner" 1 fun _ ↦ .done .ok),
    [⟨"outer", 0, .program fun _ ↦ .done .ok⟩]⟩ := by
  let program : HostProgram Empty := .register "inner" 1 inner.body fun _ ↦
    .register "outer" 0 body fun _ ↦ .call "outer" 0 fun _ ↦ .done .ok
  have hstart : Config.Reachable (.start ⟨{}, {}, #[]⟩ program) := .fresh {} {} #[] program
  have hinner : Config.Reachable ⟨⟨{ hosts := HostRegistry.register {} "inner" inner }, {},
      #[.logged (.registered "inner" 1 false)]⟩,
      .host (.register "outer" 0 body fun _ ↦ .call "outer" 0 fun _ ↦ .done .ok), []⟩ := by
    refine hstart.step ?_
    simp [Config.start, Config.step, Config.hostStep, World.register, World.log,
      HostRegistry.contains, program, inner]
  have houter : Config.Reachable ⟨⟨{ hosts }, {}, journal.pop⟩,
      .host (.call "outer" 0 fun _ ↦ .done .ok), []⟩ := by
    refine hinner.step ?_
    simp [Config.step, Config.hostStep, World.register, World.log, HostRegistry.contains,
      HostRegistry.register, journal, hosts]
  have hcalled : Config.Reachable ⟨⟨{ hosts, depth := 1 }, {}, journal⟩, .host body,
      [⟨"outer", 0, .program fun _ ↦ .done .ok⟩]⟩ := by
    refine houter.step ?_
    simp [Config.step, Config.hostStep, Config.call, Machine.dispatch, get?_outer, Config.callHost,
      Config.openCall, World.log, journal, Stack.openWindow, Stack.height]
  exact .step (.step hcalled rfl) rfl

theorem dispatch_inner : world.machine.dispatch "inner" 1 = .ok (.host inner) := by
  have harity : inner.arity = 1 := rfl
  simp [Machine.dispatch, world, Stack.height, get?_inner, harity]

/-- The machine after `inner` has returned to `outer`. -/
def worldAfter : World Empty :=
  ⟨{ stack := ⟨#[.bool true, .bool false, .null], 0⟩, hosts, depth := 1 }, {},
    journal.push (.logged (.hostCalled "inner" 1))⟩

theorem callReturns : world.CallReturns "inner" 1 (.ok ()) worldAfter :=
  (@callReturns_host_iff Empty (.ofWorld world) [.bool true] [.bool false] 0 1 "inner" (.ok ())
    worldAfter inner (Nat.zero_le _) dispatch_inner (by decide)).mpr
      ⟨_, .ok, [.bool false, .null], ⟨2, rfl⟩, rfl, rfl⟩

end Nested

theorem call_keeps_stack_contract_nested :
    Config.Reachable ⟨Nested.world, .host (.call "inner" 1 fun _ ↦ .done .ok),
        [⟨"outer", 0, .program fun _ ↦ .done .ok⟩]⟩ ∧
      Nested.world.CallReturns "inner" 1 (.ok ()) Nested.worldAfter ∧
      LeavesStack (Nested.world.machine.dispatch "inner" 1) [.bool true, .bool false] [.bool true]
        [.bool true, .bool false, .null] (.ok ()) :=
  ⟨Nested.reachable, Nested.callReturns,
    (call_keeps_stack_contract Nested.reachable Nested.callReturns).1⟩

end Bytecode
