import Interlock.Elaboration
import Interlock.Proofs.Arbiter
import Interlock.Proofs.CallLogic
import Interlock.Proofs.Fusion
import Interlock.Proofs.Schedule

/-! What a successful elaboration has gone through: a fused design, a schedule of its transactions, and
the logic that was added to it. -/

namespace Interlock

namespace Pass

variable {α β : Type}

/-- The step gives `a` and leaves the sink as it says. -/
def Gives (x : Pass α) (sink : DiagnosticSink) (a : α) (sink' : DiagnosticSink) : Prop :=
  x.run.run sink = .ok (.ok a, sink')

theorem gives_pure {sink sink' : DiagnosticSink} {a b : α} (h : Gives (pure a) sink b sink') : a = b := by
  obtain ⟨h, -⟩ := Prod.mk.inj (Except.ok.inj h)
  exact Except.ok.inj h

theorem gives_bind {x : Pass α} {f : α → Pass β} {sink sink' : DiagnosticSink} {b : β}
    (h : Gives (x >>= f) sink b sink') : ∃ a s, Gives x sink a s ∧ Gives (f a) s b sink' := by
  simp only [Gives, ExceptT.run_bind, StateT.run_bind] at h
  obtain ⟨⟨r, s⟩, hr, h⟩ := except_bind_ok.1 h
  cases r with
  | error e => exact nomatch h
  | ok a => exact ⟨a, s, hr, h⟩

theorem gives_ofAttempt {x : Attempt DesignError α} {sink sink' : DiagnosticSink} {a : α}
    (h : Gives (ofAttempt x) sink a sink') : Attempt.Gives x a := by
  simp only [Gives, ofAttempt, ExceptT.run_mk, StateT.run_lift] at h
  obtain ⟨r, hr, h⟩ := except_bind_ok.1 h
  obtain ⟨rfl, -⟩ := Prod.mk.inj (except_pure_ok.1 h)
  exact hr

end Pass

namespace Design

variable {d : Design}

theorem elaborate_passes {sink sink' : DiagnosticSink} {e : Elaborated}
    (h : d.elaborate sink = .ok (.ok e, sink')) :
    ∃ (f : Fused) (s : Schedule) (d' : Design), Attempt.Gives d.fused f ∧ f.design.schedule f.map = .ok s ∧
      Attempt.Gives (f.design.withLogic f.map s) d' ∧
      Attempt.Gives (Drivers.lower d'.netlist d'.assigns d'.ownerOf) e.netlist ∧
      e.report = ScheduleReport.ofSchedule d' s f.groups := by
  simp only [elaborate, except_bind_ok] at h
  obtain ⟨⟨r, s'⟩, hr, h⟩ := h
  cases r with
  | error err => cases (Prod.mk.inj (except_pure_ok.1 h)).1
  | ok e' =>
    obtain rfl : e' = e := Except.ok.inj (Prod.mk.inj (except_pure_ok.1 h)).1
    obtain ⟨f, _, hf, hr⟩ := Pass.gives_bind (x := Pass.ofAttempt d.fused) hr
    obtain ⟨_, _, _, hr⟩ := Pass.gives_bind hr
    obtain ⟨_, _, _, hr⟩ := Pass.gives_bind hr
    obtain ⟨s, _, hs, hr⟩ := Pass.gives_bind hr
    obtain ⟨d', _, hd', hr⟩ := Pass.gives_bind hr
    obtain ⟨_, _, _, hr⟩ := Pass.gives_bind hr
    obtain ⟨n, _, hn, hr⟩ := Pass.gives_bind hr
    obtain rfl := Pass.gives_pure hr
    exact ⟨f, s, d', Pass.gives_ofAttempt hf, Attempt.gives_ofExcept.1 (Pass.gives_ofAttempt hs),
      Pass.gives_ofAttempt hd', Pass.gives_ofAttempt hn, rfl⟩

theorem elaborate_steps {sink sink' : DiagnosticSink} {e : Elaborated}
    (h : d.elaborate sink = .ok (.ok e, sink')) :
    ∃ (f : Fused) (s : Schedule) (d' : Design), Attempt.Gives d.fused f ∧ f.design.schedule f.map = .ok s ∧
      Attempt.Gives (f.design.withLogic f.map s) d' ∧
      Attempt.Gives (Drivers.lower d'.netlist d'.assigns d'.ownerOf) e.netlist := by
  obtain ⟨f, s, d', hf, hs, hd', hlower, -⟩ := elaborate_passes h
  exact ⟨f, s, d', hf, hs, hd', hlower⟩

/-- A fused design and its schedule, with all the logic that elaboration adds. -/
structure Circuit (d : Design) (map : CallMap) (s : Schedule) (d' : Design) (l : List GuardedAssign) : Prop
    extends Wired d d' l where
  describes : map.Describes d
  schedules : Schedule.Schedules s d map
  arbiters : ∀ members ∈ s.components, Arbiter.Arbitrated d s members d'.netlist l
  methods : ∀ n ∈ d.nodeList, CallLogic.MethodDriven d map n l
  transactions : ∀ n ∈ d.nodeList, CallLogic.TransactionDriven map n l
  -- The signals that are added are the registers of the classes that take turns.
  registers : ∀ x, d.netlist.signals.size ≤ x → (x < d'.netlist.signals.size ∨ x ∈ l.map (·.target)) →
    ∃ members ∈ s.components, Arbiter.Turns d members d'.netlist l x

theorem withLogic_ok {map : CallMap} {s : Schedule} {d' : Design} (hd : d.Sound) (hmap : map.Describes d)
    (hs : Schedule.Schedules s d map) (h : Attempt.Gives (d.withLogic map s) d') :
    ∃ l, Circuit d map s d' l := by
  simp only [withLogic, Attempt.gives_bind, Attempt.gives_ofExcept] at h
  obtain ⟨d₁, h₁, h₂⟩ := h
  have hclasses : s.components.zipIdx.map (·.1) = s.components := List.zipIdx_map_fst 0 s.components
  obtain ⟨l₁, he₁⟩ := Arbiter.emit_ok (s := s) hd s.components.zipIdx (.refl d)
    (by rw [hclasses]; exact fun t => (hs.classes t).1) (by rw [hclasses]; exact hs.divided) h₁
  rw [hclasses] at he₁
  obtain ⟨l₂, hg₂, hd₂⟩ := CallLogic.emit_ok hd hmap.keyed he₁.gains h₂
  have hgrant : ∀ x ∈ l₁.map (·.target), d.netlist.signals.size ≤ x ∨
      ∃ t ∈ d.transactions, x = (d.node t).activator := by
    intro x hx
    rcases he₁.targets x hx with hnew | ⟨t, ht, he⟩
    · exact .inl hnew.1
    · exact .inr ⟨t, (hs.classes t).1 ht, he⟩
  have hlogic : d.Logic (l₁ ++ l₂) := by
    refine ⟨fun a ha => ?_, ?_⟩
    · rcases List.mem_append.1 ha with ha | ha
      · rcases hgrant _ (List.mem_map_of_mem ha) with hle | ⟨t, ht, he⟩
        · exact .inl hle
        · obtain ⟨info, htr⟩ := hd.transaction ht
          refine .inr ⟨t, _, htr.get?, ?_⟩
          rw [he, htr.generated, htr.activator]
          exact List.mem_cons_self ..
      · exact .inr (hd₂.generated (List.mem_map_of_mem ha))
    · rw [List.map_append, List.nodup_append]
      refine ⟨he₁.nodup, hd₂.nodup hd, fun x hx y hy hxy => ?_⟩
      subst hxy
      rcases hgrant x hx with hle | ⟨t, ht, rfl⟩
      · -- Registers are new, and the logic of calls drives wires that were there before.
        obtain ⟨i, n, hn, hgen⟩ := hd₂.generated hy
        exact absurd ((hd.nodes i n hn).declared _ (Node.generated_subset hgen)) (Nat.not_lt.2 hle)
      · exact hd₂.not_grant hd ht hy
  refine ⟨l₁ ++ l₂, ⟨hd, he₁.gains.trans hg₂, hlogic⟩, hmap, hs, fun members hm => ?_, fun n hn => ?_,
    fun n hn info hinfo => ?_, fun x hle hx => ?_⟩
  · exact (he₁.arbitrated members hm).mono hg₂.signals fun a ha => List.mem_append_left _ ha
  · exact (hd₂.methods n hn).mono fun a ha => List.mem_append_right _ ha
  · exact List.mem_append_right _ (hd₂.transactions n hn info hinfo)
  · have hnetlist := CallLogic.emit_netlist h₂
    have hnew : x < d₁.netlist.signals.size := by
      rw [hnetlist, List.map_append, List.mem_append] at hx
      rcases hx with hx | hx | hx
      · exact hx
      · rcases he₁.targets x hx with hnew | ⟨t, ht, rfl⟩
        · exact hnew.2
        · obtain ⟨info, htr⟩ := hd.transaction ((hs.classes t).1 ht)
          exact absurd (isBit_lt htr.grant) (Nat.not_lt.2 (htr.activator ▸ hle))
      · obtain ⟨i, n, hn, hgen⟩ := hd₂.generated hx
        exact absurd ((hd.nodes i n hn).declared _ (Node.generated_subset hgen)) (Nat.not_lt.2 hle)
    obtain ⟨members, hm, hturns⟩ := he₁.turns x hle hnew
    exact ⟨members, hm, hturns.mono hg₂.signals fun a ha => List.mem_append_left _ ha⟩

/-- The circuit that a successful elaboration ends up with. -/
theorem elaborate_circuit {sink sink' : DiagnosticSink} {e : Elaborated} {f : Fused} {s : Schedule}
    (hd : d.Sound) (he : d.elaborate sink = .ok (.ok e, sink')) (hf : Attempt.Gives d.fused f)
    (hs : f.design.schedule f.map = .ok s) :
    ∃ d' l, Circuit f.design f.map s d' l ∧ e.netlist = d'.lowered := by
  obtain ⟨f', s', d', hf', hs', hd', hlower⟩ := elaborate_steps he
  obtain rfl := hf.unique hf'
  obtain rfl : s = s' := Except.ok.inj (hs.symm.trans hs')
  obtain ⟨hsound, hmap, -⟩ := fused_ok hd hf
  obtain ⟨l, hcircuit⟩ := withLogic_ok hsound hmap (Schedule.schedule_ok hsound hmap hs) hd'
  exact ⟨d', l, hcircuit, Drivers.lower_ok hlower⟩

end Design

end Interlock
