import Interlock.Drivers
import Interlock.Netlist.Fingerprint
import Interlock.Proofs.Anonymous.Design

/-! Netlists without names. Netlists that differ in the names of signals only have the same fingerprint, and keep or
break the same rules; and so do those that are lowered from the same assignments. -/

namespace Interlock

open Attempt

/-- Errors about netlists that break the same rule. -/
def NetlistError.SameKind (e e' : NetlistError) : Prop := e.kind = e'.kind

namespace Netlist

variable {n n' : Netlist}

/-- What does not depend on the names of signals is the same for both. -/
theorem same {α : Type} (h : n.anonymous = n'.anonymous) {f : Netlist → α} (hf : ∀ n : Netlist, f n.anonymous = f n) :
    f n = f n' := by
  rw [← hf n, ← hf n', h]

theorem fingerprint_anonymous (n : Netlist) : n.anonymous.fingerprint = n.fingerprint := by
  rw [fingerprint, fingerprint, anonymous, Arena.size_map, Arena.toList_map, List.flatMap_map]
  rfl

theorem structuralHash_same (h : n.anonymous = n'.anonymous) : n.structuralHash = n'.structuralHash := by
  rw [structuralHash, structuralHash, same h fingerprint_anonymous]

/-- The signals in order, each beside the one that it is like. -/
theorem signals_alike (h : n.anonymous = n'.anonymous) :
    List.Forall₂ (fun s s' => s.anonymous = s'.anonymous) n.signals.toList n'.signals.toList := by
  refine forall₂_of_map ?_
  rw [← Arena.toList_map, ← Arena.toList_map]
  exact congrArg (fun n : Netlist => n.signals.toList) h

theorem get_agrees (h : n.anonymous = n'.anonymous) (x : SignalId) :
    Agree Eq (fun s s' => s.anonymous = s'.anonymous) (n.signals.get x) (n'.signals.get x) := by
  have hget : (n.signals.get? x).map Signal.anonymous = (n'.signals.get? x).map Signal.anonymous := by
    rw [← Arena.get?_map, ← Arena.get?_map]
    exact congrArg (fun n : Netlist => n.signals.get? x) h
  have hsignal := rel_of_map hget
  unfold Arena.get
  generalize n.signals.get? x = o at hsignal ⊢
  generalize n'.signals.get? x = o' at hsignal ⊢
  cases hsignal with
  | none => exact .error rfl
  | some hs => exact .ok hs

/-! ### Rules -/

theorem checkWidths_agrees {signals signals' : List Signal}
    (h : List.Forall₂ (fun s s' => s.anonymous = s'.anonymous) signals signals') :
    Agree NetlistError.SameKind Eq (checkWidths signals) (checkWidths signals') := by
  induction h with
  | nil => exact .ok rfl
  | cons hs _ ih =>
    rename_i s s' _ _ _
    have hwidth : s.anonymous.width = s'.anonymous.width := by rw [hs]
    rw [checkWidths, checkWidths, show s.width = s'.width from hwidth]
    split
    · exact .error rfl
    · exact ih

theorem checkDriver_agrees (h : n.anonymous = n'.anonymous) (driven : List SignalId) (domain : Domain) (a : Assign) :
    Agrees NetlistError.SameKind Eq (n.checkDriver driven domain a) (n'.checkDriver driven domain a) := by
  unfold checkDriver
  refine (agrees_ofChecked (get_agrees h a.target)).bind fun s s' hs => ?_
  have hkind : s.anonymous.kind = s'.anonymous.kind := by rw [hs]
  rw [show s.kind = s'.kind from hkind]
  refine Agrees.guard rfl (Agrees.guard rfl (Agrees.guard rfl ?_))
  refine (agrees_ofChecked (.refl fun _ => rfl)).bind fun _ _ _ => ?_
  split
  · exact agrees_throw rfl
  · exact agrees_pure rfl

theorem checkDrivers_agrees (h : n.anonymous = n'.anonymous) (driven : List SignalId) (drivers : List (Domain × Assign)) :
    Agrees NetlistError.SameKind Eq (n.checkDrivers driven drivers) (n'.checkDrivers driven drivers) := by
  induction drivers generalizing driven with
  | nil => exact agrees_pure rfl
  | cons driver rest ih =>
    rw [checkDrivers, checkDrivers]
    exact (checkDriver_agrees h driven _ _).bind fun _ _ _ => ih _

theorem validate_agrees (h : n.anonymous = n'.anonymous) : Agrees NetlistError.SameKind Eq n.validate n'.validate := by
  unfold validate
  rw [same h (f := drivers) fun _ => rfl]
  exact (agrees_ofExcept (checkWidths_agrees (signals_alike h))).bind fun _ _ _ => checkDrivers_agrees h _ _

theorem combOrder_agrees (h : n.anonymous = n'.anonymous) : Agrees NetlistError.SameKind Eq n.combOrder n'.combOrder := by
  unfold combOrder
  rw [same h (f := dependencies) fun _ => rfl, same h (f := lastDriver) fun _ => rfl]
  split
  · exact agrees_pure rfl
  · refine (agrees_mapM fun id => agrees_ofChecked (get_agrees h id)).bind fun _ _ _ => ?_
    exact agrees_throw rfl

end Netlist

namespace Drivers

variable {n n' : Netlist} {owner owner' : SignalId → Option Location}

theorem build_anonymous (n : Netlist) (assigns : List GuardedAssign) :
    build n.anonymous assigns = (build n assigns).anonymous := by
  have hsize : n.anonymous.signals.size = n.signals.size := Arena.size_map ..
  have htargets : targets n.anonymous assigns = targets n assigns := by
    funext domain
    rw [targets, targets, hsize]
  have hdriver : driver n.anonymous assigns = driver n assigns := by
    funext domain x
    simp only [driver, fallback, Netlist.read, Design.widthOf_anonymous]
  rw [build, build, htargets, hdriver]
  rfl

theorem kind_errorOf (n : Netlist) (owner : SignalId → Option Location) (e : NetlistError) :
    (errorOf n owner e).kind = if e.kind = "CombLoop" then "CombinationalCycle" else "Internal" := by
  cases e <;> rfl

theorem errorOf_kind {e e' : NetlistError} (h : e.SameKind e') :
    DesignError.SameKind (errorOf n owner e) (errorOf n' owner' e') := by
  rw [DesignError.SameKind, kind_errorOf, kind_errorOf, h]

theorem lower_agrees (h : n.anonymous = n'.anonymous) (assigns : List GuardedAssign) :
    Agrees DesignError.SameKind (fun n n' => n.anonymous = n'.anonymous) (lower n assigns owner)
      (lower n' assigns owner') := by
  have hbuild : (build n assigns).anonymous = (build n' assigns).anonymous := by
    rw [← build_anonymous, ← build_anonymous, h]
  unfold lower
  refine Agrees.bind (R := Eq) (Agrees.adapt ?_ fun _ _ => errorOf_kind) fun _ _ _ => agrees_pure hbuild
  refine (Netlist.validate_agrees hbuild).bind fun _ _ _ => ?_
  exact (Netlist.combOrder_agrees hbuild).bind fun _ _ _ => agrees_pure rfl

end Drivers

end Interlock
