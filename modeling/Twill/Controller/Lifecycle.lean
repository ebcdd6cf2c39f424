/-
The lifecycle controller (`controller/src/lib.rs`): scale-to-zero instances.

A step is one critical section of one thread on an instance (`Controller::start`,
`Controller::stop`, `Drop for Lease`, the two sections of `reap_once`), or what
a thread does between two of them: taking and returning a permit of the
warm-admission semaphore around `Database::open`, and renewing a lease. How
`open` and a renewal end, and whether an idle instance has timed out, is part of
the action. An instance never started is cold without a handle, as a new one.
Clocks and counters are left out.
-/
import Twill.Lib.Transition

namespace Twill.Controller

inductive LifecycleState where
  | cold
  | warming
  | active
  | idle
  | stopping
  deriving DecidableEq, Repr

/-- What of `ControllerConfig` the steps read. -/
structure ControllerConfig where
  maxConcurrentWarms : Nat
  keepWarm : Bool

/-- The identity of an `Arc<Database>`. -/
abbrev Handle := Nat

structure InstState where
  phase : LifecycleState
  handle : Option Handle
  /-- Outstanding leases. -/
  active : Nat
  deriving DecidableEq, Repr

structure Lease where
  url : String
  db : Handle
  deriving DecidableEq, Repr

/-- Inside `warm`: waiting for a permit, inside `Database::open`, or done. -/
inductive WarmStage where
  | queued
  | opening
  | opened (res : Option Handle)
  deriving DecidableEq, Repr

/-- A thread that won the right to warm. -/
structure Starter where
  url : String
  stage : WarmStage
  deriving DecidableEq, Repr

/-- A reaper between its two sections: what it read, and whether its renewal
failed (`none` before the renewal). -/
structure Reap where
  url : String
  phase : LifecycleState
  db : Handle
  fenced : Option Bool
  deriving DecidableEq, Repr

structure Sys where
  inst : String → InstState
  starters : List Starter
  leases : List Lease
  reaps : List Reap
  /-- Free permits of `warm_sem`. -/
  permits : Nat
  /-- `start` found an active instance without a handle. -/
  panicked : Bool

def InstState.new : InstState := ⟨.cold, none, 0⟩

def Sys.init (cfg : ControllerConfig) : Sys := ⟨fun _ => .new, [], [], [], cfg.maxConcurrentWarms, false⟩

inductive Act where
  | start (url : String)
  | acquire (url : String)
  | openReturns (url : String) (res : Option Handle)
  | settle (url : String) (res : Option Handle)
  | dropLease (lease : Lease)
  | stop (url : String)
  | snapshot (url : String)
  | renew (r : Reap) (ok : Bool)
  | update (r : Reap) (expired : Bool)

namespace Sys

def setInst (σ : Sys) (url : String) (s : InstState) : Sys := { σ with inst := Function.update σ.inst url s }

section

variable (σ : Sys) (url : String) (s : InstState)

@[simp] theorem setInst_starters : (σ.setInst url s).starters = σ.starters := rfl

@[simp] theorem setInst_leases : (σ.setInst url s).leases = σ.leases := rfl

@[simp] theorem setInst_reaps : (σ.setInst url s).reaps = σ.reaps := rfl

@[simp] theorem setInst_permits : (σ.setInst url s).permits = σ.permits := rfl

@[simp] theorem setInst_self : (σ.setInst url s).inst url = s := Function.update_self ..

theorem setInst_of_ne {u : String} (h : u ≠ url) : (σ.setInst url s).inst u = σ.inst u := Function.update_of_ne h ..

end

/-- A starter moves on. -/
def moveStarter (σ : Sys) (url : String) (stage stage' : WarmStage) : Sys :=
  { σ with starters := ⟨url, stage'⟩ :: σ.starters.erase ⟨url, stage⟩ }

/-- `start`, one round of its loop. A waiter blocks until the phase settles. -/
def start (σ : Sys) (url : String) : Option Sys :=
  let s := σ.inst url
  match s.phase with
  | .active | .idle =>
    let τ := σ.setInst url { s with phase := .active, active := s.active + 1 }
    match s.handle with
    | some db => some { τ with leases := ⟨url, db⟩ :: σ.leases }
    | none => some { τ with panicked := true }
  | .cold => some { σ.setInst url { s with phase := .warming } with starters := ⟨url, .queued⟩ :: σ.starters }
  | .warming | .stopping => none

/-- The section of `start` after its warm. -/
def settle (σ : Sys) (url : String) (res : Option Handle) : Sys :=
  let s := σ.inst url
  let σ := { σ with starters := σ.starters.erase ⟨url, .opened res⟩ }
  match res with
  | some db => { σ.setInst url ⟨.active, some db, s.active + 1⟩ with leases := ⟨url, db⟩ :: σ.leases }
  | none => σ.setInst url { s with phase := .cold }

/-- `stop`: a no-op with active leases. -/
def stop (σ : Sys) (url : String) : Sys :=
  let s := σ.inst url
  if s.active = 0 then σ.setInst url { s with phase := .cold, handle := none } else σ

/-- `Drop for Lease`. -/
def dropLease (σ : Sys) (lease : Lease) : Sys :=
  let s := σ.inst lease.url
  { σ.setInst lease.url { s with active := s.active - 1 } with leases := σ.leases.erase lease }

def isWarm : LifecycleState → Bool
  | .active | .idle => true
  | _ => false

/-- The first section of `reap_once` on an instance. -/
def snapshot (σ : Sys) (url : String) : Sys :=
  let s := σ.inst url
  match s.handle with
  | none => σ
  | some db => { σ with reaps := ⟨url, s.phase, db, if isWarm s.phase then none else some false⟩ :: σ.reaps }

/-- The idle check of `reap_once` on an unfenced instance. -/
def idleCheck (cfg : ControllerConfig) (s : InstState) (expired : Bool) : InstState :=
  if s.active = 0 then
    let s := if s.phase = .active then { s with phase := .idle } else s
    if s.phase = .idle ∧ expired = true ∧ cfg.keepWarm = false then { s with phase := .cold, handle := none } else s
  else if s.phase = .idle then { s with phase := .active } else s

/-- The last section of `reap_once` on an instance. -/
def update (cfg : ControllerConfig) (σ : Sys) (r : Reap) (fenced expired : Bool) : Sys :=
  let s := σ.inst r.url
  let σ := { σ with reaps := σ.reaps.erase r }
  if fenced then σ.setInst r.url { s with phase := .cold, handle := none }
  else σ.setInst r.url (idleCheck cfg s expired)

end Sys

/-- One step; `none` when the action is not enabled. -/
def step (cfg : ControllerConfig) (σ : Sys) : Act → Option Sys
  | .start url => σ.start url
  | .acquire url =>
    if (⟨url, .queued⟩ : Starter) ∈ σ.starters ∧ 0 < σ.permits then
      some { σ.moveStarter url .queued .opening with permits := σ.permits - 1 }
    else none
  | .openReturns url res =>
    if (⟨url, .opening⟩ : Starter) ∈ σ.starters then
      some { σ.moveStarter url .opening (.opened res) with permits := σ.permits + 1 }
    else none
  | .settle url res => if (⟨url, .opened res⟩ : Starter) ∈ σ.starters then some (σ.settle url res) else none
  | .dropLease lease => if lease ∈ σ.leases then some (σ.dropLease lease) else none
  | .stop url => some (σ.stop url)
  | .snapshot url => some (σ.snapshot url)
  | .renew r ok =>
    if r ∈ σ.reaps ∧ r.fenced = none then
      some { σ with reaps := { r with fenced := some !ok } :: σ.reaps.erase r }
    else none
  | .update r expired => match r.fenced with
    | some fenced => if r ∈ σ.reaps then some (σ.update cfg r fenced expired) else none
    | none => none

end Twill.Controller
