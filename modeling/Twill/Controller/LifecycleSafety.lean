/-
What the controller keeps, and when.

`Good` is the state between steps: a handle exactly in the warm phases, one
starter inside `warm` exactly in the warming phase, as many leases as the
counter says, permits accounted for. Two steps can break it, because neither
looks at the phase it overwrites: a `stop` while a starter is warming, and the
last section of the reaper after a failed renewal when the instance has moved on
to another handle. In runs without these (`Orderly`) everything holds.
-/
import Twill.Controller.Lifecycle

namespace Twill.Controller

open Transition Sys

variable {cfg : ControllerConfig} {σ τ : Sys} {url : String}

/-- The starters inside `warm` for a URL. -/
def warmingFor (starters : List Starter) (url : String) : Nat := starters.countP fun s => s.url == url

/-- The warms in flight over all URLs: the permits taken. -/
def warmsInFlight (starters : List Starter) : Nat := starters.countP fun s => s.stage == .opening

/-- The live leases of a URL. -/
def leasesOf (leases : List Lease) (url : String) : Nat := leases.countP fun l => l.url == url

structure Good (cfg : ControllerConfig) (σ : Sys) : Prop where
  handle : ∀ u, (σ.inst u).handle.isSome = true ↔ isWarm (σ.inst u).phase = true
  calm : σ.panicked = false
  active : ∀ u, (σ.inst u).active = leasesOf σ.leases u
  warming : ∀ u, warmingFor σ.starters u = if (σ.inst u).phase = .warming then 1 else 0
  admitted : warmsInFlight σ.starters + σ.permits = cfg.maxConcurrentWarms
  settled : ∀ u, (σ.inst u).phase ≠ .stopping

/-- A leased instance loses its handle only to a failed renewal of that handle,
and a failed renewal of another handle takes nothing. -/
structure TearsDownRightly (σ : Sys) (a : Act) (τ : Sys) : Prop where
  leased : ∀ u db, 0 < (σ.inst u).active → (σ.inst u).handle = some db → (τ.inst u).handle = some db ∨
    ∃ r expired, a = .update r expired ∧ r.url = u ∧ r.db = db ∧ r.fenced = some true
  current : ∀ r expired db, a = .update r expired → r.fenced = some true → (σ.inst r.url).handle = some db →
    (τ.inst r.url).handle = some db ∨ r.db = db

/-- Not a `stop` of a warming instance, nor the end of a failed renewal on an
instance that has moved on to another handle or a new warm. -/
def Orderly (σ : Sys) : Act → Prop
  | .stop url => (σ.inst url).active = 0 → (σ.inst url).phase ≠ .warming
  | .update r _ => r.fenced = some true →
      (σ.inst r.url).handle = some r.db ∨ (σ.inst r.url).phase = .cold
  | _ => True

/-! ## Counting -/

theorem warmingFor_cons (s : Starter) (l : List Starter) (u : String) :
    warmingFor (s :: l) u = warmingFor l u + if s.url = u then 1 else 0 := by
  simp [warmingFor, List.countP_cons]

theorem warmsInFlight_cons (s : Starter) (l : List Starter) :
    warmsInFlight (s :: l) = warmsInFlight l + if s.stage = .opening then 1 else 0 := by
  simp [warmsInFlight, List.countP_cons]

theorem leasesOf_cons (lease : Lease) (l : List Lease) (u : String) :
    leasesOf (lease :: l) u = leasesOf l u + if lease.url = u then 1 else 0 := by
  simp [leasesOf, List.countP_cons]

theorem warmingFor_erase {s : Starter} {l : List Starter} (h : s ∈ l) (u : String) :
    warmingFor (l.erase s) u + (if s.url = u then 1 else 0) = warmingFor l u := by
  rw [← warmingFor_cons]
  exact ((List.perm_cons_erase h).countP_eq _).symm

theorem warmsInFlight_erase {s : Starter} {l : List Starter} (h : s ∈ l) :
    warmsInFlight (l.erase s) + (if s.stage = .opening then 1 else 0) = warmsInFlight l := by
  rw [← warmsInFlight_cons]
  exact ((List.perm_cons_erase h).countP_eq _).symm

theorem leasesOf_erase {lease : Lease} {l : List Lease} (h : lease ∈ l) (u : String) :
    leasesOf (l.erase lease) u + (if lease.url = u then 1 else 0) = leasesOf l u := by
  rw [← leasesOf_cons]
  exact ((List.perm_cons_erase h).countP_eq _).symm

/-! ## Each step -/

/-- A starter inside `warm` says its instance is warming, with no handle. -/
theorem Good.of_starter (h : Good cfg σ) {stage : WarmStage} (hs : (⟨url, stage⟩ : Starter) ∈ σ.starters) :
    (σ.inst url).phase = .warming ∧ (σ.inst url).handle = none := by
  have hcount := warmingFor_erase hs url
  have hwarming := h.warming url
  have hphase : (σ.inst url).phase = .warming := by
    by_contra hne
    rw [if_neg hne] at hwarming
    simp at hcount
    omega
  refine ⟨hphase, ?_⟩
  have hhandle := h.handle url
  rw [hphase] at hhandle
  simpa [isWarm] using hhandle

/-- One instance, its starters and its leases change. -/
theorem Good.change (h : Good cfg σ) {s : InstState} {starters : List Starter} {leases : List Lease}
    {reaps : List Reap} {permits : Nat} (hhandle : s.handle.isSome = true ↔ isWarm s.phase = true)
    (hsettled : s.phase ≠ .stopping) (hactive : s.active = leasesOf leases url)
    (hleases : ∀ u, u ≠ url → leasesOf leases u = leasesOf σ.leases u)
    (hwarming : warmingFor starters url = if s.phase = .warming then 1 else 0)
    (hstarters : ∀ u, u ≠ url → warmingFor starters u = warmingFor σ.starters u)
    (hadmitted : warmsInFlight starters + permits = cfg.maxConcurrentWarms) :
    Good cfg { σ.setInst url s with starters := starters, leases := leases, reaps := reaps, permits := permits } := by
  have hinst : ∀ u, u ≠ url → (σ.setInst url s).inst u = σ.inst u := fun u hu => setInst_of_ne _ _ _ hu
  have hself : (σ.setInst url s).inst url = s := setInst_self ..
  refine ⟨fun u => ?_, h.calm, fun u => ?_, fun u => ?_, hadmitted, fun u => ?_⟩ <;> by_cases hu : u = url
  · subst hu
    rw [hself]
    exact hhandle
  · rw [hinst u hu]
    exact h.handle u
  · subst hu
    rw [hself]
    exact hactive
  · rw [hinst u hu, h.active u]
    exact (hleases u hu).symm
  · subst hu
    rw [hself]
    exact hwarming
  · rw [hinst u hu, ← h.warming u]
    exact hstarters u hu
  · subst hu
    rw [hself]
    exact hsettled
  · rw [hinst u hu]
    exact h.settled u

theorem Good.start (h : Good cfg σ) (hstep : σ.start url = some τ) : Good cfg τ := by
  have hhandle := h.handle url
  have hwarming := h.warming url
  have hactive := h.active url
  unfold Sys.start at hstep
  -- a lease on an instance already warm
  have hgrant : isWarm (σ.inst url).phase = true → (∀ db, (σ.inst url).handle = some db → Good cfg
      { σ.setInst url { σ.inst url with phase := .active, active := (σ.inst url).active + 1 } with
        leases := ⟨url, db⟩ :: σ.leases }) ∧ ∃ db, (σ.inst url).handle = some db := by
    intro hwarm
    have hsome := hhandle.2 hwarm
    refine ⟨fun db _ => ?_, Option.isSome_iff_exists.1 hsome⟩
    refine h.change ?_ (by simp) ?_ (fun u hu => ?_) ?_ (fun _ _ => rfl) h.admitted
    · simpa [isWarm] using hsome
    · rw [leasesOf_cons, if_pos rfl, hactive]
    · rw [leasesOf_cons, if_neg (Ne.symm hu), Nat.add_zero]
    · have hne : (σ.inst url).phase ≠ .warming := by
        rintro heq
        simp [heq, isWarm] at hwarm
      rw [if_neg hne] at hwarming
      exact hwarming
  cases hphase : (σ.inst url).phase with
  | active | idle =>
    obtain ⟨hgood, db, hdb⟩ := hgrant (by rw [hphase]; rfl)
    simp only [hphase, hdb] at hstep
    obtain rfl := Option.some.inj hstep
    simpa only [hdb] using hgood db hdb
  | cold =>
    simp only [hphase] at hstep
    obtain rfl := Option.some.inj hstep
    rw [hphase] at hhandle hwarming
    refine h.change ?_ (by simp) hactive (fun _ _ => rfl) ?_ (fun u hu => ?_) ?_
    · simpa [isWarm] using hhandle
    · rw [warmingFor_cons, if_pos rfl, hwarming]
      simp
    · rw [warmingFor_cons, if_neg (Ne.symm hu), Nat.add_zero]
    · rw [warmsInFlight_cons]
      simpa using h.admitted
  | warming | stopping => simp [hphase] at hstep

theorem Good.move (h : Good cfg σ) {stage stage' : WarmStage} {permits : Nat}
    (hmem : (⟨url, stage⟩ : Starter) ∈ σ.starters)
    (hpermits : (if stage' = .opening then 1 else 0) + permits = (if stage = .opening then 1 else 0) + σ.permits) :
    Good cfg { σ.moveStarter url stage stage' with permits := permits } := by
  have hcount := fun u => warmingFor_erase hmem u
  have hadmitted := warmsInFlight_erase hmem
  have h₀ := h.admitted
  refine ⟨h.handle, h.calm, h.active, fun u => ?_, ?_, h.settled⟩
  · show warmingFor (⟨url, stage'⟩ :: σ.starters.erase ⟨url, stage⟩) u = if (σ.inst u).phase = .warming then 1 else 0
    rw [← h.warming u, warmingFor_cons]
    exact hcount u
  · show warmsInFlight (⟨url, stage'⟩ :: σ.starters.erase ⟨url, stage⟩) + permits = _
    rw [warmsInFlight_cons]
    simp only at hadmitted ⊢
    omega

theorem Good.settle (h : Good cfg σ) {res : Option Handle} (hmem : (⟨url, .opened res⟩ : Starter) ∈ σ.starters) :
    Good cfg (σ.settle url res) := by
  obtain ⟨hphase, hhandle⟩ := h.of_starter hmem
  have hcount := fun u => warmingFor_erase hmem u
  have hadmitted := warmsInFlight_erase hmem
  simp only [reduceCtorEq, if_false, Nat.add_zero] at hadmitted
  have hself : warmingFor (σ.starters.erase ⟨url, .opened res⟩) url = 0 := by
    have hone := h.warming url
    rw [hphase, ← hcount url] at hone
    simpa using hone
  have hothers : ∀ u, u ≠ url → warmingFor (σ.starters.erase ⟨url, .opened res⟩) u = warmingFor σ.starters u := by
    intro u hu
    have := hcount u
    rwa [if_neg (Ne.symm hu), Nat.add_zero] at this
  cases res with
  | some db =>
    refine h.change (s := ⟨.active, some db, (σ.inst url).active + 1⟩) (by simp [isWarm]) (by simp) ?_ (fun u hu => ?_)
      (by simpa using hself) hothers ?_
    · rw [leasesOf_cons, if_pos rfl, h.active url]
    · rw [leasesOf_cons, if_neg (Ne.symm hu), Nat.add_zero]
    · exact hadmitted ▸ h.admitted
  | none =>
    refine h.change (s := { σ.inst url with phase := .cold }) (by simp [isWarm, hhandle]) (by simp) (h.active url)
      (fun _ _ => rfl) (by simpa using hself) hothers ?_
    exact hadmitted ▸ h.admitted

/-- The phase and the handle of an instance that is not warming change. -/
theorem Good.settled_change (h : Good cfg σ) {s : InstState} {l : List Reap}
    (hwas : (σ.inst url).phase ≠ .warming) (hnow : s.phase ≠ .warming) (hsettled : s.phase ≠ .stopping)
    (hactive : s.active = (σ.inst url).active) (hhandle : s.handle.isSome = true ↔ isWarm s.phase = true) :
    Good cfg { σ.setInst url s with reaps := l } := by
  have hwarming := h.warming url
  rw [if_neg hwas] at hwarming
  refine h.change hhandle hsettled (hactive.trans (h.active url)) (fun _ _ => rfl) ?_ (fun _ _ => rfl) h.admitted
  rw [if_neg hnow]
  exact hwarming

theorem Good.stop (h : Good cfg σ) (hord : (σ.inst url).active = 0 → (σ.inst url).phase ≠ .warming) :
    Good cfg (σ.stop url) := by
  unfold Sys.stop
  dsimp only
  split
  · next hidle =>
    exact h.settled_change (s := { σ.inst url with phase := .cold, handle := none }) (l := σ.reaps) (hord hidle)
      (by simp) (by simp) rfl (by simp [isWarm])
  · exact h

theorem Good.dropLease (h : Good cfg σ) {lease : Lease} (hmem : lease ∈ σ.leases) : Good cfg (σ.dropLease lease) := by
  have hcount := fun u => leasesOf_erase hmem u
  refine h.change (s := { σ.inst lease.url with active := (σ.inst lease.url).active - 1 }) (h.handle lease.url)
    (h.settled lease.url) ?_ (fun u hu => ?_) (h.warming lease.url) (fun _ _ => rfl) h.admitted
  · have hone := hcount lease.url
    rw [if_pos rfl, ← h.active lease.url] at hone
    show (σ.inst lease.url).active - 1 = _
    omega
  · have := hcount u
    rwa [if_neg (Ne.symm hu), Nat.add_zero] at this

theorem Good.reaps (h : Good cfg σ) (reaps : List Reap) : Good cfg { σ with reaps := reaps } :=
  ⟨h.handle, h.calm, h.active, h.warming, h.admitted, h.settled⟩

/-- The idle check moves within the phases it may, with the handle. -/
theorem idleCheck_cases (cfg : ControllerConfig) (s : InstState) (expired : Bool) :
    (idleCheck cfg s expired).active = s.active ∧ (idleCheck cfg s expired = s ∨
      (isWarm s.phase = true ∧ isWarm (idleCheck cfg s expired).phase = true ∧ (idleCheck cfg s expired).handle = s.handle) ∨
      (isWarm s.phase = true ∧ s.active = 0 ∧ (idleCheck cfg s expired).phase = .cold ∧
        (idleCheck cfg s expired).handle = none)) := by
  obtain ⟨phase, handle, active⟩ := s
  unfold idleCheck
  cases phase <;> grind [isWarm]

theorem Good.update (h : Good cfg σ) {r : Reap} {fenced : Bool} (expired : Bool)
    (hord : fenced = true → (σ.inst r.url).handle = some r.db ∨ (σ.inst r.url).phase = .cold) :
    Good cfg (σ.update cfg r fenced expired) := by
  have hhandle := h.handle r.url
  cases fenced with
  | true =>
    have hne : (σ.inst r.url).phase ≠ .warming := by
      intro heq
      rcases hord rfl with hdb | hcold
      · simp [heq, hdb, isWarm] at hhandle
      · simp [heq] at hcold
    exact h.settled_change (s := { σ.inst r.url with phase := .cold, handle := none }) hne (by simp) (by simp) rfl
      (by simp [isWarm])
  | false =>
    obtain ⟨hactive, hcases⟩ := idleCheck_cases cfg (σ.inst r.url) expired
    have hwarm : ∀ {p : LifecycleState}, isWarm p = true → p ≠ .warming ∧ p ≠ .stopping := by
      intro p hp
      cases p <;> simp_all [isWarm]
    rcases hcases with hsame | ⟨hwas, hnow, hkept⟩ | ⟨hwas, -, hcold, hnone⟩
    · show Good cfg ({ σ with reaps := σ.reaps.erase r }.setInst r.url (idleCheck cfg (σ.inst r.url) expired))
      rw [hsame, setInst, Function.update_eq_self]
      exact h.reaps _
    · exact h.settled_change (hwarm hwas).1 (hwarm hnow).1 (hwarm hnow).2 hactive
        (by rw [hkept, hnow, hhandle, hwas])
    · exact h.settled_change (hwarm hwas).1 (by simp [hcold]) (by simp [hcold]) hactive
        (by simp [hcold, hnone, isWarm])

/-- **One orderly step keeps the state good.** -/
theorem Good.step (h : Good cfg σ) {a : Act} (hstep : Controller.step cfg σ a = some τ) (hord : Orderly σ a) :
    Good cfg τ := by
  cases a with
  | start url => exact h.start hstep
  | acquire url =>
    simp only [Controller.step] at hstep
    split at hstep
    · next hcond =>
      obtain rfl := Option.some.inj hstep
      refine h.move hcond.1 ?_
      simp
      omega
    · simp at hstep
  | openReturns url res =>
    simp only [Controller.step] at hstep
    split at hstep
    · next hmem =>
      obtain rfl := Option.some.inj hstep
      refine h.move hmem ?_
      simp
      omega
    · simp at hstep
  | settle url res =>
    simp only [Controller.step] at hstep
    split at hstep
    · next hmem =>
      obtain rfl := Option.some.inj hstep
      exact h.settle hmem
    · simp at hstep
  | dropLease lease =>
    simp only [Controller.step] at hstep
    split at hstep
    · next hmem =>
      obtain rfl := Option.some.inj hstep
      exact h.dropLease hmem
    · simp at hstep
  | stop url =>
    obtain rfl := Option.some.inj hstep
    exact h.stop hord
  | snapshot url =>
    obtain rfl := Option.some.inj hstep
    unfold Sys.snapshot
    dsimp only
    split
    · exact h
    · exact h.reaps _
  | renew r ok =>
    simp only [Controller.step] at hstep
    split at hstep
    · obtain rfl := Option.some.inj hstep
      exact h.reaps _
    · simp at hstep
  | update r expired =>
    simp only [Controller.step] at hstep
    split at hstep
    · next fenced hfenced =>
      split at hstep
      · obtain rfl := Option.some.inj hstep
        exact h.update expired fun heq => hord (by rw [hfenced, heq])
      · simp at hstep
    · simp at hstep

/-! ## Who takes a handle away -/

theorem handle_setInst {s : InstState} {u : String} {db : Handle} (hdb : (σ.inst u).handle = some db)
    (hs : u = url → s.handle = some db) : ((σ.setInst url s).inst u).handle = some db := by
  by_cases hu : u = url
  · subst hu
    rw [setInst_self]
    exact hs rfl
  · rw [setInst_of_ne _ _ _ hu]
    exact hdb

/-- A handle goes when a renewal failed, or from an instance without leases. -/
theorem handle_of_step (h : Good cfg σ) {a : Act} (hstep : Controller.step cfg σ a = some τ) {u : String} {db : Handle}
    (hdb : (σ.inst u).handle = some db) :
    (τ.inst u).handle = some db ∨ (σ.inst u).active = 0 ∨
      ∃ r expired, a = .update r expired ∧ r.url = u ∧ r.fenced = some true := by
  cases a with
  | start url =>
    left
    simp only [Controller.step, Sys.start] at hstep
    split at hstep
    · split at hstep <;>
      · obtain rfl := Option.some.inj hstep
        exact handle_setInst hdb fun heq => heq ▸ hdb
    · split at hstep <;>
      · obtain rfl := Option.some.inj hstep
        exact handle_setInst hdb fun heq => heq ▸ hdb
    · obtain rfl := Option.some.inj hstep
      exact handle_setInst hdb fun heq => heq ▸ hdb
    · simp at hstep
    · simp at hstep
  | acquire url | openReturns url res =>
    left
    simp only [Controller.step] at hstep
    split at hstep
    · obtain rfl := Option.some.inj hstep
      exact hdb
    · simp at hstep
  | settle url res =>
    left
    simp only [Controller.step] at hstep
    split at hstep
    · next hmem =>
      obtain rfl := Option.some.inj hstep
      have hne : u ≠ url := by
        rintro rfl
        simp [(h.of_starter hmem).2] at hdb
      cases res with
      | some db' =>
        exact handle_setInst (σ := { σ with starters := σ.starters.erase ⟨url, .opened (some db')⟩ }) hdb
          fun heq => absurd heq hne
      | none =>
        exact handle_setInst (σ := { σ with starters := σ.starters.erase ⟨url, .opened none⟩ }) hdb
          fun heq => absurd heq hne
    · simp at hstep
  | dropLease lease =>
    left
    simp only [Controller.step] at hstep
    split at hstep
    · obtain rfl := Option.some.inj hstep
      exact handle_setInst hdb fun heq => heq ▸ hdb
    · simp at hstep
  | stop url =>
    obtain rfl := Option.some.inj hstep
    unfold Sys.stop
    dsimp only
    split
    · next hidle =>
      by_cases hu : u = url
      · exact .inr (.inl (hu ▸ hidle))
      · exact .inl (handle_setInst hdb fun heq => absurd heq hu)
    · exact .inl hdb
  | snapshot url =>
    left
    obtain rfl := Option.some.inj hstep
    unfold Sys.snapshot
    dsimp only
    split <;> exact hdb
  | renew r ok =>
    left
    simp only [Controller.step] at hstep
    split at hstep
    · obtain rfl := Option.some.inj hstep
      exact hdb
    · simp at hstep
  | update r expired =>
    simp only [Controller.step] at hstep
    split at hstep
    · next fenced hfenced =>
      split at hstep
      · obtain rfl := Option.some.inj hstep
        by_cases hu : u = r.url
        · cases fenced with
          | true => exact .inr (.inr ⟨r, expired, rfl, hu.symm, hfenced⟩)
          | false =>
            subst hu
            have hinst : (σ.update cfg r false expired).inst r.url = idleCheck cfg (σ.inst r.url) expired :=
              setInst_self ..
            rw [hinst]
            obtain ⟨-, hsame | ⟨-, -, hkept⟩ | ⟨-, hidle, -⟩⟩ := idleCheck_cases cfg (σ.inst r.url) expired
            · rw [hsame]
              exact .inl hdb
            · rw [hkept]
              exact .inl hdb
            · exact .inr (.inl hidle)
        · left
          cases fenced <;>
          exact handle_setInst (σ := { σ with reaps := σ.reaps.erase r }) hdb fun heq => absurd heq hu
      · simp at hstep
    · simp at hstep

/-- **One orderly step tears nothing down that it should not.** -/
theorem Good.tearsDownRightly (h : Good cfg σ) {a : Act} (hstep : Controller.step cfg σ a = some τ)
    (hord : Orderly σ a) : TearsDownRightly σ a τ := by
  -- a failed renewal that counts is one of the current handle
  have hcurrent : ∀ r expired db, a = .update r expired → r.fenced = some true →
      (σ.inst r.url).handle = some db → r.db = db := by
    rintro r expired db rfl hfenced hdb
    rcases hord hfenced with hsame | hcold
    · exact Option.some.inj (hsame.symm.trans hdb)
    · have hhandle := h.handle r.url
      simp [hcold, hdb, isWarm] at hhandle
  refine ⟨fun u db hleased hdb => ?_, fun r expired db hact hfenced hdb => .inr (hcurrent r expired db hact hfenced hdb)⟩
  rcases handle_of_step h hstep hdb with hkept | hidle | ⟨r, expired, rfl, rfl, hfenced⟩
  · exact .inl hkept
  · omega
  · exact .inr ⟨r, expired, rfl, rfl, hcurrent r expired db rfl hfenced hdb, hfenced⟩

/-- A step that keeps the state good and tears down rightly is orderly. -/
theorem Good.orderly (h : Good cfg σ) {a : Act} (hstep : Controller.step cfg σ a = some τ) (h' : Good cfg τ)
    (hright : TearsDownRightly σ a τ) : Orderly σ a := by
  -- a warming instance made cold leaves its starter behind
  have hlost : ∀ u, (σ.inst u).phase = .warming → (τ.inst u).phase = .cold → τ.starters = σ.starters → False := by
    intro u hwarming hcold hstarters
    have hbefore := h.warming u
    have hafter := h'.warming u
    rw [hstarters, hbefore, hwarming, hcold] at hafter
    simp at hafter
  cases a with
  | stop url =>
    obtain rfl := Option.some.inj hstep
    intro hidle hwarming
    have hstop : σ.stop url = σ.setInst url { σ.inst url with phase := .cold, handle := none } := by
      simp [Sys.stop, hidle]
    rw [hstop] at hlost
    exact hlost url hwarming (by rw [setInst_self]) rfl
  | update r expired =>
    intro hfenced
    simp only [Controller.step, hfenced] at hstep
    split at hstep
    · obtain rfl := Option.some.inj hstep
      have hinst : (σ.update cfg r true expired).inst r.url = { σ.inst r.url with phase := .cold, handle := none } :=
        setInst_self ..
      cases hdb : (σ.inst r.url).handle with
      | some db =>
        rcases hright.current r expired db rfl hfenced hdb with hkept | heq
        · rw [hinst] at hkept
          simp at hkept
        · exact .inl (by rw [heq])
      | none =>
        right
        have hhandle := h.handle r.url
        have hsettled := h.settled r.url
        cases hphase : (σ.inst r.url).phase with
        | cold => rfl
        | warming => exact (hlost r.url hphase (by rw [hinst]) rfl).elim
        | stopping => exact absurd hphase hsettled
        | active | idle => simp [hphase, hdb, isWarm] at hhandle
    · simp at hstep
  | _ => trivial

theorem Good.init : Good cfg (Sys.init cfg) := by
  refine ⟨fun u => ?_, rfl, fun u => rfl, fun u => ?_, ?_, fun u => ?_⟩ <;>
    simp [Sys.init, InstState.new, isWarm, warmingFor, warmsInFlight]

theorem Good.run (hrun : RunWhere (Controller.step cfg) Orderly (Sys.init cfg) σ) : Good cfg σ :=
  hrun.invariant Good.init fun _ _ _ h hord hstep => h.step hstep hord

/-- A cold start of `db` whose open returns the handle `h`. -/
def coldStart (h : Handle) : List Act :=
  [.start "db", .acquire "db", .openReturns "db" (some h), .settle "db" (some h)]

end Twill.Controller
