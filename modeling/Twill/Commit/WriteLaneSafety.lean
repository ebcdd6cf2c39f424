/-
The discipline of the write lane: acquisitions and releases alternate, each
section of a connection makes one of each, and the lane is locked exactly while a
connection is in such a section.

`Stepped` says once what a step can do to the lane; the invariant is derived from
it alone.
-/
import Twill.Commit.WriteLane

namespace Twill.WriteLane

open Transition (Reach play reach_of_play)

/-- The transaction or DDL statement a connection is in. -/
def Conn.ident (k : Conn) : Option Holder := match k.pc with
  | .idle | .ensuring _ | .running _ => k.txn.map fun t => .txn t.owner
  | .finishing t | .enqueued t | .undoing t _ | .releasing t _ => some (.txn t.owner)
  | .ddl n | .quiescing n | .defining n | .defined n => some (.ddl n)
  | .committing _ | .dropped => none

/-- The connection is inside a writing transaction that is not yet handed to the
coordinator, or inside a DDL statement that got the lane. -/
def Conn.inside : Conn → Bool
  | ⟨some t, .idle⟩ | ⟨some t, .ensuring _⟩ | ⟨some t, .running _⟩ => t.writer
  | ⟨none, .finishing t⟩ => t.writer
  | ⟨none, .enqueued _⟩ | ⟨none, .undoing ..⟩ | ⟨none, .releasing ..⟩ => true
  | ⟨none, .quiescing _⟩ | ⟨none, .defining _⟩ | ⟨none, .defined _⟩ => true
  | _ => false

/-- Acquisitions and releases alternate, each release by who acquired last; the
second argument holds the lane at the end. -/
inductive Balanced : List Event → Option Holder → Prop where
  | nil : Balanced [] none
  | acquire {trace : List Event} {who : Holder} : Balanced trace none →
      Balanced (trace ++ [.acquired who]) (some who)
  | release {trace : List Event} {who : Holder} : Balanced trace (some who) →
      Balanced (trace ++ [.released who]) none

variable {σ τ : Sys}

theorem ident_of_inside {k : Conn} (h : k.inside = true) : ∃ who, k.ident = some who := by
  obtain ⟨txn, pc⟩ := k
  cases pc <;> cases txn <;> simp_all [Conn.inside, Conn.ident]

/-! ## What a step does to the lane -/

inductive Stepped (σ : Sys) : Sys → Prop where
  | refused : Stepped σ σ
  | drawn : Stepped σ { σ with nextOwner := σ.nextOwner + 1 }
  /-- The connection goes on, in its section or out of any. -/
  | move {c : Nat} {k : Conn} : (k.ident = (σ.conns c).ident ∨ k.ident = none) → k.inside = (σ.conns c).inside →
      Stepped σ (σ.setConn c k)
  | openTxn {c : Nat} {k : Conn} : k.ident = some (.txn σ.nextOwner) → k.inside = false →
      (σ.conns c).inside = false → Stepped σ { σ.setConn c k with nextOwner := σ.nextOwner + 1 }
  | openDdl {c : Nat} {k : Conn} : k.ident = some (.ddl σ.nextDdl) → k.inside = false →
      (σ.conns c).inside = false → Stepped σ { σ.setConn c k with nextDdl := σ.nextDdl + 1 }
  | acquire {c : Nat} {k : Conn} {who : Holder} : σ.locked = false → (σ.conns c).ident = some who →
      (σ.conns c).inside = false → k.ident = some who → k.inside = true →
      Stepped σ (({ σ with locked := true, trace := σ.trace ++ [.acquired who] } : Sys).setConn c k)
  | release {c : Nat} {k : Conn} {who : Holder} : (σ.conns c).ident = some who → (σ.conns c).inside = true →
      k.ident = none → k.inside = false → Stepped σ ((σ.release who).setConn c k)

theorem stepped_undo {c : Nat} {t : Txn} {pc : Pc} (hconn : σ.conns c = ⟨some t, pc⟩)
    (hpc : pc = .idle ∨ pc = .running true) (dropping : Bool) : Stepped σ (σ.undo c t dropping) := by
  unfold Sys.undo
  split_ifs with hwriter
  all_goals rcases hpc with rfl | rfl <;> refine .move ?_ ?_ <;> simp [hconn, Conn.ident, Conn.inside, hwriter]

theorem stepped_acquire {c : Nat} {k : Conn} {who : Holder} {τ : Sys}
    (hstep : (σ.acquire who).map (fun υ => υ.setConn c k) = some τ) (hident : (σ.conns c).ident = some who)
    (hout : (σ.conns c).inside = false) (hk : k.ident = some who) (hin : k.inside = true) : Stepped σ τ := by
  unfold Sys.acquire at hstep
  split_ifs at hstep with hlocked
  · cases hstep
  · obtain rfl := Option.some.inj hstep
    exact .acquire (by simpa using hlocked) hident hout hk hin

theorem stepped_of_step {a : Act} (hstep : step σ a = some τ) : Stepped σ τ := by
  cases a with
  | begin c =>
    simp only [step] at hstep
    split at hstep
    · next hconn =>
      obtain rfl := Option.some.inj hstep
      exact .openTxn rfl rfl (by rw [hconn]; rfl)
    · obtain rfl := Option.some.inj hstep
      exact .refused
    · cases hstep
  | dml c =>
    simp only [step] at hstep
    split at hstep
    · next hconn =>
      obtain rfl := Option.some.inj hstep
      exact .openTxn rfl rfl (by rw [hconn]; rfl)
    · next t hconn =>
      obtain rfl := Option.some.inj hstep
      exact .move (.inl (by rw [hconn]; rfl)) (by rw [hconn]; rfl)
    · cases hstep
  | acquire c =>
    simp only [step] at hstep
    split at hstep
    · next t implicit hconn =>
      split_ifs at hstep with hwriter
      · obtain rfl := Option.some.inj hstep
        exact .move (.inl (by rw [hconn]; rfl)) (by rw [hconn]; rfl)
      · refine stepped_acquire hstep (by rw [hconn]; rfl) ?_ rfl rfl
        simpa [hconn, Conn.inside] using hwriter
    · next n hconn => exact stepped_acquire hstep (by rw [hconn]; rfl) (by rw [hconn]; rfl) rfl rfl
    · cases hstep
  | ran c answer =>
    simp only [step] at hstep
    split at hstep
    all_goals first | cases hstep | obtain rfl := Option.some.inj hstep
    · next t wal hconn => exact .move (.inl (by rw [hconn]; rfl)) (by rw [hconn]; rfl)
    · next t wal hconn => exact .move (.inl (by rw [hconn]; rfl)) (by rw [hconn]; rfl)
    · next t hconn => exact stepped_undo hconn (.inr rfl) false
    · next t hconn => exact .move (.inl (by rw [hconn]; rfl)) (by rw [hconn]; rfl)
  | commit c =>
    simp only [step] at hstep
    split at hstep
    all_goals first | cases hstep | obtain rfl := Option.some.inj hstep
    · next t hconn => exact .move (.inl (by rw [hconn]; rfl)) (by rw [hconn]; rfl)
    · exact .refused
  | finish c =>
    simp only [step] at hstep
    split at hstep
    · next t hconn =>
      split_ifs at hstep with hwriter hempty
      all_goals obtain rfl := Option.some.inj hstep
      · exact .move (.inl (by rw [hconn]; rfl)) (by rw [hconn]; exact hwriter.symm)
      · exact .move (.inl (by rw [hconn]; rfl)) (by rw [hconn]; exact hwriter.symm)
      · exact .move (.inr rfl) (by rw [hconn]; exact (Bool.eq_false_iff.2 hwriter).symm)
    · cases hstep
  | rollback c =>
    simp only [step] at hstep
    split at hstep
    all_goals first | cases hstep | obtain rfl := Option.some.inj hstep
    · next t hconn => exact stepped_undo hconn (.inl rfl) false
    · exact .refused
  | undone c =>
    simp only [step] at hstep
    split at hstep
    · next t dropping hconn =>
      obtain rfl := Option.some.inj hstep
      exact .move (.inl (by rw [hconn]; rfl)) (by rw [hconn]; rfl)
    · cases hstep
  | release c =>
    simp only [step] at hstep
    split at hstep
    all_goals first | cases hstep | obtain rfl := Option.some.inj hstep
    · next t dropping hconn =>
      cases dropping <;> exact .release (by rw [hconn]; rfl) (by rw [hconn]; rfl) rfl rfl
    · next t hconn => exact .release (by rw [hconn]; rfl) (by rw [hconn]; rfl) rfl rfl
    · next n hconn => exact .release (by rw [hconn]; rfl) (by rw [hconn]; rfl) rfl rfl
  | resolved c ok =>
    simp only [step] at hstep
    split at hstep
    · next owner hconn =>
      obtain rfl := Option.some.inj hstep
      exact .move (.inr rfl) (by rw [hconn]; rfl)
    · cases hstep
  | savepoint c name =>
    simp only [step] at hstep
    split at hstep
    all_goals first | cases hstep | obtain rfl := Option.some.inj hstep
    · next t hconn => exact .move (.inl (by rw [hconn]; rfl)) (by rw [hconn]; rfl)
    · exact .refused
  | releaseSavepoint c name =>
    simp only [step] at hstep
    split at hstep
    · next t hconn =>
      split at hstep
      all_goals obtain rfl := Option.some.inj hstep
      · exact .move (.inl (by rw [hconn]; rfl)) (by rw [hconn]; rfl)
      · exact .refused
    · obtain rfl := Option.some.inj hstep
      exact .refused
    · cases hstep
  | rollbackTo c name =>
    simp only [step] at hstep
    split at hstep
    · next t hconn =>
      split at hstep
      all_goals obtain rfl := Option.some.inj hstep
      · exact .move (.inl (by rw [hconn]; rfl)) (by rw [hconn]; rfl)
      · exact .refused
    · obtain rfl := Option.some.inj hstep
      exact .refused
    · cases hstep
  | ddl c =>
    simp only [step] at hstep
    split at hstep
    all_goals first | cases hstep | obtain rfl := Option.some.inj hstep
    · next hconn => exact .openDdl rfl rfl (by rw [hconn]; rfl)
    · exact .refused
  | quiesced c =>
    simp only [step] at hstep
    split at hstep
    · next n hconn =>
      obtain rfl := Option.some.inj hstep
      exact .move (.inl (by rw [hconn]; rfl)) (by rw [hconn]; rfl)
    · cases hstep
  | defined c ok =>
    simp only [step] at hstep
    split at hstep
    · next n hconn =>
      obtain rfl := Option.some.inj hstep
      exact .move (.inl (by rw [hconn]; rfl)) (by rw [hconn]; rfl)
    · cases hstep
  | drop c =>
    simp only [step] at hstep
    split at hstep
    all_goals first | cases hstep | obtain rfl := Option.some.inj hstep
    · next t hconn => exact stepped_undo hconn (.inl rfl) true
    · next hconn => exact .move (.inr rfl) (by rw [hconn]; rfl)
  | otherOwner =>
    obtain rfl := Option.some.inj hstep
    exact .drawn

/-! ## The invariant -/

/-- The number of a transaction or DDL statement was given out. -/
def Sys.Drawn (σ : Sys) : Holder → Prop
  | .txn owner => owner < σ.nextOwner
  | .ddl n => n < σ.nextDdl

structure Inv (σ : Sys) (held : Option Holder) : Prop where
  balanced : Balanced σ.trace held
  locked : σ.locked = held.isSome
  held : ∀ who, held = some who ↔ ∃ c, (σ.conns c).inside = true ∧ (σ.conns c).ident = some who
  apart : ∀ c c' who, (σ.conns c).ident = some who → (σ.conns c').ident = some who → c = c'
  drawn : ∀ c who, (σ.conns c).ident = some who → σ.Drawn who
  traced : ∀ who, .acquired who ∈ σ.trace → σ.Drawn who
  /-- Who did not get the lane yet is not in the trace. -/
  fresh : ∀ c who, (σ.conns c).ident = some who → (σ.conns c).inside = false → .acquired who ∉ σ.trace
  once : ∀ who, σ.trace.count (.acquired who) ≤ 1

theorem Balanced.count {trace : List Event} {held : Option Holder} (h : Balanced trace held) (who : Holder) :
    trace.count (.acquired who) = trace.count (.released who) + if held = some who then 1 else 0 := by
  induction h with
  | nil => simp
  | @acquire trace w _ ih =>
    by_cases hw : w = who <;> simp_all [List.count_append, List.count_singleton]
  | @release trace w _ ih =>
    by_cases hw : w = who <;> simp_all [List.count_append, List.count_singleton]

theorem Inv.init : Inv Sys.init none := by
  refine ⟨.nil, rfl, ?_, ?_, ?_, ?_, ?_, ?_⟩ <;> simp [Sys.init, Conn.ident]

section

variable {held : Option Holder} {c : Nat} {k : Conn}

@[simp] theorem conns_setConn_self (σ : Sys) (c : Nat) (k : Conn) : (σ.setConn c k).conns c = k := by
  simp [Sys.setConn]

theorem conns_setConn_of_ne {c c' : Nat} (h : c' ≠ c) (σ : Sys) (k : Conn) :
    (σ.setConn c k).conns c' = σ.conns c' := by
  simp [Sys.setConn, h]

/-- Who is in the lane is alone there. -/
theorem Inv.alone (h : Inv σ held) {c c' : Nat} (hc : (σ.conns c).inside = true) (hc' : (σ.conns c').inside = true) :
    c = c' := by
  obtain ⟨who, hwho⟩ := ident_of_inside hc
  obtain ⟨who', hwho'⟩ := ident_of_inside hc'
  have heq := (h.held who).2 ⟨c, hc, hwho⟩
  have heq' := (h.held who').2 ⟨c', hc', hwho'⟩
  obtain rfl := Option.some.inj (heq.symm.trans heq')
  exact h.apart c c' who hwho hwho'

/-- A connection changes, inside or outside as before, into a section of its own. -/
theorem Inv.setConn (h : Inv σ held) (hin : k.inside = (σ.conns c).inside)
    (hkeep : k.inside = true → k.ident = (σ.conns c).ident)
    (hdrawn : ∀ who, k.ident = some who → σ.Drawn who)
    (hapart : ∀ who c', k.ident = some who → (σ.conns c').ident = some who → c' = c)
    (hfresh : ∀ who, k.ident = some who → k.inside = false → .acquired who ∉ σ.trace) : Inv (σ.setConn c k) held := by
  refine ⟨h.balanced, h.locked, fun who => ?_, fun c₁ c₂ who h₁ h₂ => ?_, fun c' who h' => ?_, h.traced,
    fun c' who h' hout => ?_, h.once⟩
  · rw [h.held who]
    constructor
    · rintro ⟨c', hc', hwho⟩
      refine ⟨c', ?_⟩
      by_cases heq : c' = c
      · subst heq
        rw [conns_setConn_self]
        exact ⟨hin.trans hc', (hkeep (hin.trans hc')).trans hwho⟩
      · rw [conns_setConn_of_ne heq]
        exact ⟨hc', hwho⟩
    · rintro ⟨c', hc', hwho⟩
      refine ⟨c', ?_⟩
      by_cases heq : c' = c
      · subst heq
        rw [conns_setConn_self] at hc' hwho
        exact ⟨hin.symm.trans hc', (hkeep hc').symm.trans hwho⟩
      · rw [conns_setConn_of_ne heq] at hc' hwho
        exact ⟨hc', hwho⟩
  · by_cases heq₁ : c₁ = c
    · subst heq₁
      by_cases heq₂ : c₂ = c₁
      · exact heq₂.symm
      · rw [conns_setConn_self] at h₁
        rw [conns_setConn_of_ne heq₂] at h₂
        exact (hapart who c₂ h₁ h₂).symm
    · rw [conns_setConn_of_ne heq₁] at h₁
      by_cases heq₂ : c₂ = c
      · subst heq₂
        rw [conns_setConn_self] at h₂
        exact hapart who c₁ h₂ h₁
      · rw [conns_setConn_of_ne heq₂] at h₂
        exact h.apart c₁ c₂ who h₁ h₂
  · by_cases heq : c' = c
    · subst heq
      rw [conns_setConn_self] at h'
      exact hdrawn who h'
    · rw [conns_setConn_of_ne heq] at h'
      exact h.drawn c' who h'
  · by_cases heq : c' = c
    · subst heq
      rw [conns_setConn_self] at h' hout
      exact hfresh who h' hout
    · rw [conns_setConn_of_ne heq] at h' hout
      exact h.fresh c' who h' hout

/-- Counters that only grow keep the invariant. -/
theorem Inv.grow (h : Inv σ held) {owner ddl : Nat} (howner : σ.nextOwner ≤ owner) (hddl : σ.nextDdl ≤ ddl) :
    Inv { σ with nextOwner := owner, nextDdl := ddl } held := by
  have hdrawn : ∀ who, σ.Drawn who → ({ σ with nextOwner := owner, nextDdl := ddl } : Sys).Drawn who := by
    intro who hwho
    cases who with
    | txn o => exact Nat.lt_of_lt_of_le hwho howner
    | ddl n => exact Nat.lt_of_lt_of_le hwho hddl
  exact ⟨h.balanced, h.locked, h.held, h.apart, fun c who hwho => hdrawn who (h.drawn c who hwho),
    fun who hwho => hdrawn who (h.traced who hwho), h.fresh, h.once⟩

/-- A section with a number not given out before opens. -/
theorem Inv.openSection (h : Inv σ held) {who : Holder} {owner ddl : Nat} (hk : k.ident = some who)
    (hout : k.inside = false) (hwas : (σ.conns c).inside = false) (hnew : ¬ σ.Drawn who)
    (howner : σ.nextOwner ≤ owner) (hddl : σ.nextDdl ≤ ddl)
    (hnow : ({ σ with nextOwner := owner, nextDdl := ddl } : Sys).Drawn who) :
    Inv ({ σ with nextOwner := owner, nextDdl := ddl }.setConn c k) held := by
  refine (h.grow howner hddl).setConn (hout.trans hwas.symm) (fun hin => ?_) (fun w hw => ?_) (fun w c' hw hc' => ?_)
    (fun w hw _ hmem => ?_)
  · simp [hout] at hin
  all_goals obtain rfl := Option.some.inj (hk.symm.trans hw)
  · exact hnow
  · exact absurd (h.drawn c' who hc') hnew
  · exact hnew (h.traced who hmem)

theorem Inv.acquire (h : Inv σ held) {who : Holder} (hfree : σ.locked = false) (hident : (σ.conns c).ident = some who)
    (hout : (σ.conns c).inside = false) (hk : k.ident = some who) (hin : k.inside = true) :
    Inv (({ σ with locked := true, trace := σ.trace ++ [.acquired who] } : Sys).setConn c k) (some who) := by
  have hnone : held = none := Option.isSome_eq_false_iff.1 (h.locked.symm.trans hfree) |> Option.isNone_iff_eq_none.1
  have hoff : ∀ c', (σ.conns c').inside ≠ true := by
    intro c' hin'
    obtain ⟨w, hw⟩ := ident_of_inside hin'
    have := (h.held w).2 ⟨c', hin', hw⟩
    simp [hnone] at this
  have hnotin := h.fresh c who hident hout
  obtain rfl := hnone
  have hmem : ∀ w, Event.acquired w ∈ σ.trace ++ [.acquired who] → .acquired w ∈ σ.trace ∨ w = who := by
    intro w hw
    simpa using hw
  refine ⟨.acquire h.balanced, rfl, fun w => ?_, fun c₁ c₂ w h₁ h₂ => ?_, fun c' w h' => ?_, fun w hw => ?_,
    fun c' w h' hout' hw => ?_, fun w => ?_⟩
  · constructor
    · intro heq
      obtain rfl := Option.some.inj heq
      exact ⟨c, by rw [conns_setConn_self]; exact hin, by rw [conns_setConn_self]; exact hk⟩
    · rintro ⟨c', hc', hw⟩
      by_cases heq : c' = c
      · subst heq
        rw [conns_setConn_self] at hw
        exact hk.symm.trans hw
      · rw [conns_setConn_of_ne heq] at hc'
        exact absurd hc' (hoff c')
  · have hsame : ∀ c', ((({ σ with locked := true, trace := σ.trace ++ [.acquired who] } : Sys).setConn c k).conns
        c').ident = (σ.conns c').ident := by
      intro c'
      by_cases heq : c' = c
      · subst heq
        rw [conns_setConn_self]
        exact hk.trans hident.symm
      · rw [conns_setConn_of_ne heq]
    rw [hsame] at h₁ h₂
    exact h.apart c₁ c₂ w h₁ h₂
  · by_cases heq : c' = c
    · subst heq
      rw [conns_setConn_self] at h'
      obtain rfl := Option.some.inj (hk.symm.trans h')
      exact h.drawn c' who hident
    · rw [conns_setConn_of_ne heq] at h'
      exact h.drawn c' w h'
  · rcases hmem w hw with hw | rfl
    · exact h.traced w hw
    · exact h.drawn c w hident
  · by_cases heq : c' = c
    · subst heq
      rw [conns_setConn_self] at hout'
      simp [hin] at hout'
    · rw [conns_setConn_of_ne heq] at h' hout'
      rcases hmem w hw with hw | rfl
      · exact h.fresh c' w h' hout' hw
      · exact heq (h.apart c' c w h' hident)
  · show (σ.trace ++ [Event.acquired who]).count (Event.acquired w) ≤ 1
    rw [List.count_append, List.count_singleton]
    by_cases heq : w = who
    · subst heq
      simp [List.count_eq_zero_of_not_mem hnotin]
    · simpa [Ne.symm heq] using h.once w

theorem Inv.release (h : Inv σ held) {who : Holder} (hident : (σ.conns c).ident = some who)
    (hin : (σ.conns c).inside = true) (hk : k.ident = none) : Inv ((σ.release who).setConn c k) none := by
  obtain rfl := (h.held who).2 ⟨c, hin, hident⟩
  have hmem : ∀ w, Event.acquired w ∈ σ.trace ++ [.released who] → .acquired w ∈ σ.trace := by
    intro w hw
    simpa using hw
  have hother : ∀ c' w, (((σ.release who).setConn c k).conns c').ident = some w → c' ≠ c ∧ (σ.conns c').ident = some w := by
    intro c' w hw
    by_cases heq : c' = c
    · subst heq
      rw [conns_setConn_self, hk] at hw
      cases hw
    · rw [conns_setConn_of_ne heq] at hw
      exact ⟨heq, hw⟩
  refine ⟨.release h.balanced, rfl, fun w => ⟨by simp, ?_⟩, fun c₁ c₂ w h₁ h₂ => ?_, fun c' w h' => ?_,
    fun w hw => h.traced w (hmem w hw), fun c' w h' hout' hw => ?_, fun w => ?_⟩
  · rintro ⟨c', hc', hw⟩
    obtain ⟨hne, -⟩ := hother c' w hw
    rw [conns_setConn_of_ne hne] at hc'
    exact absurd (h.alone hc' hin) hne
  · exact h.apart c₁ c₂ w (hother c₁ w h₁).2 (hother c₂ w h₂).2
  · exact h.drawn c' w (hother c' w h').2
  · obtain ⟨hne, h'⟩ := hother c' w h'
    rw [conns_setConn_of_ne hne] at hout'
    exact h.fresh c' w h' hout' (hmem w hw)
  · show (σ.trace ++ [Event.released who]).count (Event.acquired w) ≤ 1
    simpa [List.count_append, List.count_singleton] using h.once w

end

theorem Inv.step {held : Option Holder} (h : Inv σ held) (hs : Stepped σ τ) : ∃ held', Inv τ held' := by
  cases hs with
  | refused => exact ⟨held, h⟩
  | drawn => exact ⟨held, h.grow (Nat.le_succ _) le_rfl⟩
  | @move c k hident hin =>
    refine ⟨held, h.setConn hin (fun hk => ?_) (fun who hwho => ?_) (fun who c' hwho hc' => ?_) fun who hwho hout => ?_⟩
    · rcases hident with hsame | hnone
      · exact hsame
      · obtain ⟨who, hwho⟩ := ident_of_inside hk
        simp [hnone] at hwho
    all_goals rcases hident with hsame | hnone
    · exact h.drawn c who (hsame.symm.trans hwho)
    · simp [hnone] at hwho
    · exact h.apart c' c who hc' (hsame.symm.trans hwho)
    · simp [hnone] at hwho
    · exact h.fresh c who (hsame.symm.trans hwho) (hin.symm.trans hout)
    · simp [hnone] at hwho
  | openTxn hk hout hwas =>
    exact ⟨held, h.openSection hk hout hwas (Nat.lt_irrefl _) (Nat.le_succ _) le_rfl (Nat.lt_succ_self _)⟩
  | openDdl hk hout hwas =>
    exact ⟨held, h.openSection hk hout hwas (Nat.lt_irrefl _) le_rfl (Nat.le_succ _) (Nat.lt_succ_self _)⟩
  | acquire hfree hident hout hk hin => exact ⟨_, h.acquire hfree hident hout hk hin⟩
  | release hident hin hk _ => exact ⟨_, h.release hident hin hk⟩

theorem inv_of_reach (h : Reach step Sys.init σ) : ∃ held, Inv σ held := by
  refine h.invariant (I := fun σ => ∃ held, Inv σ held) ⟨none, Inv.init⟩ ?_
  rintro τ υ a ⟨held, hinv⟩ - hstep
  exact hinv.step (stepped_of_step hstep)

/-! ## The discipline -/

/-- Steps lead to the release of the lane by a connection. -/
def Frees (σ : Sys) (c : Nat) : Prop :=
  ∃ acts τ, play step σ acts = some τ ∧ τ.locked = false ∧ (τ.conns c).inside = false

section

variable {c : Nat} {t : Txn} {n : Nat}

theorem Frees.step {a : Act} {υ : Sys} (hstep : WriteLane.step σ a = some υ) (h : Frees υ c) : Frees σ c := by
  obtain ⟨acts, τ, hplay, hfree⟩ := h
  refine ⟨a :: acts, τ, ?_, hfree⟩
  rw [play, hstep]
  exact hplay

theorem frees_release {k : Conn} {who : Holder}
    (hstep : WriteLane.step σ (.release c) = some ((σ.release who).setConn c k)) (hk : k.inside = false) : Frees σ c := by
  refine ⟨[.release c], (σ.release who).setConn c k, ?_, rfl, by rw [conns_setConn_self]; exact hk⟩
  rw [play, hstep]
  rfl

theorem frees_releasing {dropping : Bool} (hconn : σ.conns c = ⟨none, .releasing t dropping⟩) : Frees σ c := by
  refine frees_release (by rw [WriteLane.step, hconn]) ?_
  cases dropping <;> rfl

theorem frees_undoing {dropping : Bool} (hconn : σ.conns c = ⟨none, .undoing t dropping⟩) : Frees σ c :=
  .step (a := .undone c) (by rw [WriteLane.step, hconn]) (frees_releasing (conns_setConn_self σ c _))

theorem frees_undo (dropping : Bool) (hwriter : t.writer = true) : Frees (σ.undo c t dropping) c := by
  rw [Sys.undo, if_pos hwriter]
  exact frees_undoing (conns_setConn_self σ c _)

theorem frees_finishing (hwriter : t.writer = true) (hconn : σ.conns c = ⟨none, .finishing t⟩) : Frees σ c := by
  by_cases hempty : t.walOps.isEmpty = true
  · refine .step (a := .finish c) ?_ (frees_releasing (conns_setConn_self σ c ⟨none, .releasing t false⟩))
    simp [WriteLane.step, hconn, hwriter, hempty]
  · have henqueued : (σ.setConn c ⟨none, .enqueued t⟩).conns c = ⟨none, .enqueued t⟩ := conns_setConn_self σ c _
    refine .step (a := .finish c) ?_ (frees_release (by rw [WriteLane.step, henqueued]) rfl)
    simp [WriteLane.step, hconn, hwriter, hempty]

theorem frees_idle (hwriter : t.writer = true) (hconn : σ.conns c = ⟨some t, .idle⟩) : Frees σ c := by
  have hstep : WriteLane.step σ (.rollback c) = some (σ.undo c t false) := by rw [WriteLane.step, hconn]
  exact .step hstep (frees_undo false hwriter)

theorem frees_running {implicit : Bool} (hwriter : t.writer = true) (hconn : σ.conns c = ⟨some t, .running implicit⟩) :
    Frees σ c := by
  cases implicit with
  | true =>
    have hstep : WriteLane.step σ (.ran c none) = some (σ.undo c t false) := by simp only [WriteLane.step, hconn]
    exact .step hstep (frees_undo false hwriter)
  | false =>
    have hstep : WriteLane.step σ (.ran c none) = some (σ.setConn c ⟨some t, .idle⟩) := by
      simp only [WriteLane.step, hconn]
    exact .step hstep (frees_idle hwriter (conns_setConn_self σ c _))

theorem frees_defining (hconn : σ.conns c = ⟨none, .defining n⟩) : Frees σ c := by
  have hdefined : (σ.setConn c ⟨none, .defined n⟩).conns c = ⟨none, .defined n⟩ := conns_setConn_self σ c _
  refine .step (a := .defined c true) (by rw [WriteLane.step, hconn]) ?_
  exact frees_release (by rw [WriteLane.step, hdefined]) rfl

/-- From inside its section a connection gets to the end of it by steps of its own. -/
theorem frees_of_inside (hin : (σ.conns c).inside = true) : Frees σ c := by
  unfold Conn.inside at hin
  split at hin
  · next t hconn => exact frees_idle hin hconn
  · next t implicit hconn =>
    refine .step (a := .acquire c) ?_ (frees_running hin (conns_setConn_self σ c ⟨some t, .running implicit⟩))
    rw [WriteLane.step, hconn]
    exact if_pos hin
  · next t implicit hconn => exact frees_running hin hconn
  · next t hconn => exact frees_finishing hin hconn
  · next t hconn => exact frees_release (by rw [WriteLane.step, hconn]) rfl
  · next t dropping hconn => exact frees_undoing hconn
  · next t dropping hconn => exact frees_releasing hconn
  · next n hconn =>
    exact .step (a := .quiesced c) (by rw [WriteLane.step, hconn]) (frees_defining (conns_setConn_self σ c _))
  · next n hconn => exact frees_defining hconn
  · next n hconn => exact frees_release (by rw [WriteLane.step, hconn]) rfl
  · cases hin

end

/-- **Write-lane discipline.** In every reachable state acquisitions and releases
alternate, each release by the transaction or DDL statement that acquired; each of
these acquires at most once and has released as often, unless it holds the lane. The
lane is locked exactly while a connection is inside such a section, no two are at
once, and once every connection is between statements without a transaction the lane
is free. -/
theorem writeLane_discipline (hreach : Reach step Sys.init σ) :
    (∃ held, Balanced σ.trace held ∧
      ∀ who, σ.trace.count (.acquired who) ≤ 1 ∧
        σ.trace.count (.acquired who) = σ.trace.count (.released who) + if held = some who then 1 else 0) ∧
    (σ.locked = true ↔ ∃ c, (σ.conns c).inside = true) ∧
    (∀ c c', (σ.conns c).inside = true → (σ.conns c').inside = true → c = c') ∧
    (∀ c, (σ.conns c).inside = true → Frees σ c) ∧
    ((∀ c, (σ.conns c).txn = none ∧ ((σ.conns c).pc = .idle ∨ (σ.conns c).pc = .dropped)) → σ.locked = false) := by
  obtain ⟨held, h⟩ := inv_of_reach hreach
  have hlocked : σ.locked = true ↔ ∃ c, (σ.conns c).inside = true := by
    rw [h.locked, Option.isSome_iff_exists]
    constructor
    · rintro ⟨who, hwho⟩
      obtain ⟨c, hin, -⟩ := (h.held who).1 hwho
      exact ⟨c, hin⟩
    · rintro ⟨c, hin⟩
      obtain ⟨who, hwho⟩ := ident_of_inside hin
      exact ⟨who, (h.held who).2 ⟨c, hin, hwho⟩⟩
  refine ⟨⟨held, h.balanced, fun who => ⟨h.once who, h.balanced.count who⟩⟩, hlocked, fun c c' => h.alone,
    fun c => frees_of_inside, fun hidle => ?_⟩
  by_contra hne
  obtain ⟨c, hin⟩ := hlocked.1 (Bool.not_eq_false _ ▸ hne)
  obtain ⟨htxn, hpc⟩ := hidle c
  cases hconn : σ.conns c with
  | mk txn pc =>
    rw [hconn] at htxn hpc hin
    obtain rfl : txn = none := htxn
    rcases hpc with rfl | rfl <;> cases hin

/-- A writing transaction on one connection, and a DDL statement of another that waits
for the lane. -/
theorem writeLane_discipline_waiting :
    let acts : List Act := [.begin 1, .dml 1, .acquire 1, .ran 1 (some [.commit]), .ddl 2]
    ∃ σ, play step Sys.init acts = some σ ∧ σ.trace = [.acquired (.txn 1)] ∧ step σ (.acquire 2) = none ∧
      (σ.locked = true ↔ ∃ c, (σ.conns c).inside = true) ∧ Frees σ 1 := by
  intro acts
  refine ⟨_, rfl, rfl, rfl, ?_⟩
  obtain ⟨-, hlocked, -, hfrees, -⟩ := writeLane_discipline (reach_of_play .nil acts rfl)
  exact ⟨hlocked, hfrees 1 rfl⟩

end Twill.WriteLane
