import Interlock.Proofs.Anonymous.Schedule

/-! The generated logic without names. Designs that are alike get the same arbiters and the same logic of calls, so
that they are alike again; or none, for reasons of one kind. -/

namespace Interlock

open Attempt DesignError

variable {d d' : Design} {map : CallMap} {s : Schedule}

/-! ### Arbiters -/

namespace Arbiter

theorem wants_same (h : d.Alike d') : wants d = wants d' := funext fun t => by
  rw [wants, wants, h.transactionSignal, h.transactionSignal]

theorem grantOf_same (h : d.Alike d') : grantOf d = grantOf d' := funext fun t => h.transactionSignal t _

theorem driveGrant_agrees (h : d.Alike d') (t : NodeId) (value : Expr) :
    Agree SameKind Design.Alike (driveGrant d t value) (driveGrant d' t value) := by
  unfold driveGrant
  rw [h.transaction]
  split
  · exact .ok (h.drive ..)
  · exact .error rfl

theorem eager_agrees (h : d.Alike d') (earlier members : List NodeId) :
    Agree SameKind Design.Alike (eager s earlier members d) (eager s earlier members d') := by
  induction members generalizing earlier d d' with
  | nil => exact .ok h
  | cons t rest ih =>
    have hgrant : eagerGrant d s earlier t = eagerGrant d' s earlier t := by
      rw [eagerGrant, eagerGrant, wants_same h, grantOf_same h]
    rw [eager, eager, hgrant]
    exact (driveGrant_agrees h t _).bind fun _ _ h => ih h _

theorem roundRobin_agrees (h : d.Alike d') (index : Nat) (members : List NodeId) :
    Agree SameKind Design.Alike (roundRobin index members d) (roundRobin index members d') := by
  unfold roundRobin
  simp only
  split
  · exact .error rfl
  · obtain ⟨hlast, h₁⟩ := h.newSignal ("rr" ++ toString index ++ "_last") ("rr" ++ toString index ++ "_last")
      members.length .reg (UInt64.ofNat (1 <<< (members.length - 1)))
    simp only [hlast, wants_same h₁]
    refine (Agree.foldlM (P := Eq) (List.forall₂_refl _) (fun d d' p _ h hp => ?_) h₁).bind fun d d' h => ?_
    · subst hp
      rw [h.read]
      exact driveGrant_agrees h _ _
    · rw [grantOf_same h]
      exact .ok (h.assign _)

theorem emit_agrees (h : d.Alike d') : Agree SameKind Design.Alike (emit s d) (emit s d') := by
  refine Agree.foldlM (P := Eq) (List.forall₂_refl _) (fun d d' p _ h hp => ?_) h
  subst hp
  obtain ⟨members, index⟩ := p
  show Agree SameKind Design.Alike (emitClass s d members index) (emitClass s d' members index)
  unfold emitClass
  rw [h.same (f := fun d => d.config.scheduler) fun _ => rfl]
  split
  · exact roundRobin_agrees h index members
  · exact eager_agrees h [] members

end Arbiter

/-! ### Calls -/

namespace CallLogic

theorem callsFrom_same (h : d.Alike d') (m caller : NodeId) : callsFrom d m caller = callsFrom d' m caller := by
  have hcall := congrArg (List.map fun s : CallSite =>
    (⟨(d'.read (d'.node caller).activator).and s.enable, s.arg⟩ : ActiveCall)) (h.sitesTo caller m)
  rw [List.map_map, List.map_map] at hcall
  unfold callsFrom
  simp only [Node.same (h.node caller) (f := Node.activator) fun _ => rfl, h.read]
  exact hcall

theorem callsTo_same (h : d.Alike d') (m : NodeId) : callsTo d map m = callsTo d' map m := by
  have hlive : isLive d map = isLive d' map := funext fun c => by
    rw [isLive, isLive, Node.same (h.node c) (f := Node.isTransaction) fun _ => rfl]
  rw [callsTo, callsTo, h.same (f := fun d => d.callersOf m) fun d => d.callersOf_anonymous m, hlive,
    funext (callsFrom_same h m)]

theorem driveMethod_agrees (h : d.Alike d') {n n' : Node} (hn : n.anonymous = n'.anonymous) :
    Agree Eq Design.Alike (driveMethod map d n) (driveMethod map d' n') := by
  have hid : n.id = n'.id := Node.same hn (f := Node.id) fun _ => rfl
  unfold driveMethod
  rw [Node.same hn (f := Node.method?) fun _ => rfl]
  split
  · exact .ok h
  · simp only [hid, callsTo_same h]
    split
    · exact .ok (h.drive ..)
    · refine (Agree.refl fun _ => rfl).bind fun arg _ harg => ?_
      subst harg
      exact .ok ((h.drive ..).drive ..)

theorem conditionOf_agrees (t m : NodeId) : Agree SameKind Eq (conditionOf map d t m) (conditionOf map d' t m) := by
  unfold conditionOf
  split
  · exact .ok rfl
  · exact .error rfl

theorem driveTransaction_agrees (h : d.Alike d') {n n' : Node} (hn : n.anonymous = n'.anonymous) :
    Agree SameKind Design.Alike (driveTransaction map d n) (driveTransaction map d' n') := by
  have hid : n.id = n'.id := Node.same hn (f := Node.id) fun _ => rfl
  unfold driveTransaction
  rw [Node.same hn (f := Node.transaction?) fun _ => rfl, hid]
  split
  · exact .ok h
  · refine (Agree.mapM fun m => conditionOf_agrees n'.id m).bind fun conditions _ hconditions => ?_
    rw [List.forall₂_eq_eq_eq] at hconditions
    subst hconditions
    exact .ok (h.drive ..)

theorem emit_agrees (h : d.Alike d') : Agrees SameKind Design.Alike (emit map d) (emit map d') := by
  refine (agrees_ofChecked (Agree.foldlM h.nodes (fun d d' n n' h hn => driveMethod_agrees h hn) h)).bind
    fun d₁ d₁' h₁ => ?_
  exact agrees_ofExcept (Agree.foldlM h.nodes (fun d d' n n' h hn => driveTransaction_agrees h hn) h₁)

end CallLogic

theorem Design.withLogic_agrees (h : d.Alike d') :
    Agrees SameKind Design.Alike (d.withLogic map s) (d'.withLogic map s) :=
  (agrees_ofExcept (Arbiter.emit_agrees h)).bind fun _ _ h => CallLogic.emit_agrees h

end Interlock
