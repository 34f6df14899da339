import Bytecode.Embedding.Host
import Bytecode.Proofs.Run

/-!
# Host code that returns

A piece of host code is told how to go on with its result. It *returns* `a` in the world `w'` if it
comes to `w'` and goes on with `a`, however it is told to go on and whatever waits for it
(`Host.Returns`). For a call this is what it means that the call returns.

Every operation but a call returns at once. Pieces are composed with `do`, and so are the statements
that they return.
-/

namespace Bytecode

variable {ν α β : Type}

namespace Host

/-- The code comes to `w'` with the result `a`. -/
def Returns (x : Host ν α) (w : World ν) (a : α) (w' : World ν) : Prop :=
  ∀ next calls, Config.Reaches ⟨w, .host (x next), calls⟩ ⟨w', .host (next a), calls⟩

variable {w w' w'' : World ν} {x : Host ν α} {a a' : α}

/-- Host code returns in one way only. -/
theorem Returns.unique (h : x.Returns w a w') (h' : x.Returns w a' w'') : a = a' ∧ w' = w'' := by
  classical
  -- Any two results are told apart by a reply.
  let reply (found : α) : Reply := if found = a then .ok () else .error .emptyStack
  have hfirst : Bytecode.Returns (fun resume calls ↦ ⟨w, .host (x fun found ↦ resume (reply found)),
      calls⟩) (reply a) w' := fun _ _ ↦ h _ _
  have hsecond : Bytecode.Returns (fun resume calls ↦
      ⟨w, .host (x fun found ↦ resume (reply found)), calls⟩) (reply a') w'' := fun _ _ ↦ h' _ _
  obtain ⟨hreply, hworld⟩ := hfirst.unique hsecond
  refine ⟨?_, hworld⟩
  by_cases hsame : a' = a
  · exact hsame.symm
  · rw [show reply a = .ok () from if_pos rfl, show reply a' = _ from if_neg hsame] at hreply
    cases hreply

theorem returns_pure (w : World ν) (a : α) : (pure a : Host ν α).Returns w a w :=
  fun _ _ ↦ .refl _

theorem Returns.bind {f : α → Host ν β} {b : β} (hx : x.Returns w a w')
    (hf : (f a).Returns w' b w'') : (x >>= f).Returns w b w'' :=
  fun next calls ↦ (hx (fun a ↦ f a next) calls).trans (hf next calls)

/-- Looking at a result changes nothing. -/
theorem Returns.map (f : α → β) (hx : x.Returns w a w') :
    (x >>= fun a ↦ pure (f a)).Returns w (f a) w' :=
  hx.bind (returns_pure w' (f a))

/-! ## Operations that return at once -/

theorem returns_ask (w : World ν) (query : Query) : (ask query).Returns w (query.answer w) w :=
  fun _ _ ↦ .step rfl

theorem returns_act (w : World ν) (command : Command ν) :
    (act command).Returns w (command.perform w).1 (command.perform w).2 :=
  fun _ _ ↦ .step rfl

theorem returns_act_iff {command : Command ν} {reply : Reply} :
    (act command).Returns w reply w' ↔ command.perform w = (reply, w') := by
  constructor
  · intro h
    obtain ⟨hreply, hworld⟩ := (returns_act w command).unique h
    exact Prod.ext hreply hworld
  · intro h
    have hreturn := returns_act w command
    rw [h] at hreturn
    exact hreturn

theorem returns_act_ (w : World ν) (command : Command ν) :
    (act_ command).Returns w () (command.perform w).2 :=
  fun _ _ ↦ .step rfl

theorem returns_register (w : World ν) (name : String) (arity : Nat) (body : HostProgram ν) :
    (register name arity body).Returns w (w.register name ⟨arity, body⟩).1
      (w.register name ⟨arity, body⟩).2 :=
  fun _ _ ↦ .step rfl

end Host

/-! ## What commands leave alone -/

/-- Commands register nothing, one of them binds a global, and two of them load a chunk. -/
structure Command.Leaves (command : Command ν) (w w' : World ν) : Prop where
  hosts : w'.machine.hosts = w.machine.hosts
  globals : (∀ name, command ≠ .setGlobal name) → w'.machine.globals = w.machine.globals
  chunk : (∀ bytes, command ≠ .load bytes) → (∀ path, command ≠ .loadFile path) →
    w'.machine.chunk = w.machine.chunk

theorem Command.leaves_perform (command : Command ν) (w : World ν) :
    command.Leaves w (command.perform w).2 := by
  cases command with
  | setGlobal name =>
    rw [perform, World.setGlobal]
    split
    · exact ⟨rfl, fun _ ↦ rfl, fun _ _ ↦ rfl⟩
    · split
      · exact ⟨rfl, fun _ ↦ rfl, fun _ _ ↦ rfl⟩
      · exact ⟨rfl, fun h ↦ absurd rfl (h name), fun _ _ ↦ rfl⟩
  | getGlobal name =>
    rw [perform, World.getGlobal]
    split
    · exact ⟨rfl, fun _ ↦ rfl, fun _ _ ↦ rfl⟩
    · split <;> exact ⟨rfl, fun _ ↦ rfl, fun _ _ ↦ rfl⟩
  | load bytes =>
    rw [perform, World.load]
    split <;> exact ⟨rfl, fun _ ↦ rfl, fun h _ ↦ absurd rfl (h bytes)⟩
  | loadFile path =>
    rw [perform, World.loadFile]
    split
    · exact ⟨rfl, fun _ ↦ rfl, fun _ _ ↦ rfl⟩
    · rw [World.load]
      split <;> exact ⟨rfl, fun _ ↦ rfl, fun _ h ↦ absurd rfl (h path)⟩
  | saveFile path =>
    rw [perform, World.saveFile]
    split
    · exact ⟨rfl, fun _ ↦ rfl, fun _ _ ↦ rfl⟩
    · split <;> exact ⟨rfl, fun _ ↦ rfl, fun _ _ ↦ rfl⟩
  | push | pop | setTop | clearError | raise | setListener | setLimits | writeFile =>
    exact ⟨rfl, fun _ ↦ rfl, fun _ _ ↦ rfl⟩

/-- Commands neither call nor return. -/
theorem Command.depth_perform (command : Command ν) (w : World ν) :
    (command.perform w).2.machine.depth = w.machine.depth := by
  cases command with
  | setGlobal name =>
    rw [perform, World.setGlobal]
    split
    · rfl
    · split <;> rfl
  | getGlobal name =>
    rw [perform, World.getGlobal]
    split
    · rfl
    · split <;> rfl
  | load bytes =>
    rw [perform, World.load]
    split <;> rfl
  | loadFile path =>
    rw [perform, World.loadFile]
    split
    · rfl
    · rw [World.load]
      split <;> rfl
  | saveFile path =>
    rw [perform, World.saveFile]
    split
    · rfl
    · split <;> rfl
  | push | pop | setTop | clearError | raise | setListener | setLimits | writeFile => rfl

theorem World.depth_register (w : World ν) (name : String) (function : HostFunction ν) :
    (w.register name function).2.machine.depth = w.machine.depth := by
  rw [register]
  split <;> rfl

end Bytecode
