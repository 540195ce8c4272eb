import Interlock.Proofs.Reach.Loops

/-! Walks side by side. A walk for a transaction looks at the entries of this transaction alone, and at no more of
a design than the methods that it comes to. So another walk that comes to the same methods goes the same ways, be
it with other entries beside, in a design with other nodes beside, or by way of a caller more; and a call map can
be built exactly where the walk of each transaction comes to an end by itself. -/

namespace Interlock

namespace Attempt

variable {ε α β γ : Type}

/-- Where a fold gives a result, another whose steps follow its steps gives a related one. -/
theorem gives_foldlM_follow {R : β → γ → Prop} {f : β → α → Attempt ε β} {g : γ → α → Attempt ε γ} {l : List α}
    (step : ∀ x ∈ l, ∀ b c b', Gives (f b x) b' → R b c → ∃ c', Gives (g c x) c' ∧ R b' c') {b b' : β} {c : γ}
    (h : Gives (l.foldlM f b) b') (hbc : R b c) : ∃ c', Gives (l.foldlM g c) c' ∧ R b' c' := by
  induction l generalizing b c with
  | nil =>
    rw [List.foldlM_nil, gives_pure] at h
    exact ⟨c, gives_pure.2 rfl, h ▸ hbc⟩
  | cons x xs ih =>
    rw [List.foldlM_cons, gives_bind] at h
    obtain ⟨b₁, hb₁, h⟩ := h
    obtain ⟨c₁, hc₁, hR⟩ := step x (List.mem_cons_self ..) b c b₁ hb₁ hbc
    obtain ⟨c', hc', hR'⟩ := ih (fun y hy => step y (List.mem_cons_of_mem _ hy)) h hR
    exact ⟨c', by rw [List.foldlM_cons]; exact gives_bind.2 ⟨c₁, hc₁, hc'⟩, hR'⟩

end Attempt

namespace CallMap

variable {d d' : Design} {map map' : CallMap} {t t' u m : NodeId} {outer : List NodeId} {r : Reach}

/-! ### Entries -/

/-- The entries of a transaction. -/
def entriesOf (map : CallMap) (t : NodeId) : List Reach := map.reaches.filter fun r => r.transaction == t

theorem methodsOf_eq (map : CallMap) (t : NodeId) : map.methodsOf t = (map.entriesOf t).map (·.method) := rfl

theorem find?_eq (map : CallMap) (t m : NodeId) : map.find? t m = (map.entriesOf t).find? fun r => r.method == m := by
  rw [entriesOf, List.find?_filter, find?]
  exact congrArg (List.find? · _) (funext fun r => by
    rw [Bool.decide_and, Bool.decide_eq_true, Bool.decide_eq_true])

theorem mem_methodsOf_add (h : map.add d r = .ok map') :
    m ∈ map'.methodsOf u ↔ (u = r.transaction ∧ m = r.method) ∨ m ∈ map.methodsOf u := by
  simp only [← exists_find?_iff, find?_add h]
  split
  · rename_i hkey
    exact iff_of_true ⟨_, rfl⟩ (.inl hkey)
  · rename_i hkey
    exact (or_iff_right hkey).symm

theorem entriesOf_narrowed (r : Reach) (u : NodeId) :
    entriesOf ⟨map.reaches.map (narrowed r)⟩ u = (map.entriesOf u).map (narrowed r) := by
  unfold entriesOf
  rw [List.filter_map]
  refine congrArg _ (List.filter_congr fun x _ => ?_)
  rw [Function.comp_apply, (narrowed_same r x).1]

/-- Entries of other transactions stay as they are. -/
theorem entriesOf_add_of_ne (h : map.add d r = .ok map') (hne : u ≠ r.transaction) :
    map'.entriesOf u = map.entriesOf u := by
  rcases add_ok_iff.1 h with ⟨-, rfl⟩ | ⟨_, -, -, rfl⟩
  · simp [entriesOf, List.filter_append, hne.symm]
  · rw [entriesOf_narrowed]
    refine (List.map_congr_left fun x hx => ?_).trans (List.map_id _)
    have hxu : x.transaction = u := by simpa using (List.mem_filter.1 hx).2
    exact narrowed_of_ne fun hkey => hne (hxu.symm.trans hkey.1)

/-! ### Second ways -/

/-- Ways part at a node that both of them share. -/
theorem fork_parent (m : NodeId) : ∀ (c : NodeId) (as bs : List NodeId), (fork m c as bs).1 ∈ c :: bs
  | c, a :: as, b :: bs => by
    rw [fork]
    split
    · rename_i hab
      exact List.mem_cons_of_mem _ (hab ▸ fork_parent m a as bs)
    · exact List.mem_cons_self ..
  | _, _ :: _, [] | _, [], _ :: _ | _, [], [] => List.mem_cons_self ..

/-- What a walk for `t` reads of a design is the same in another. -/
structure Keeps (d d' : Design) (t : NodeId) : Prop where
  calls : (d'.node t).calls = (d.node t).calls
  callee : ∀ c m sites, (m, sites) ∈ (d.node c).calls → ∃ info, (d.node m).method? = some info
  method : ∀ m info, (d.node m).method? = some info → (d'.node m).method? = some info ∧
    (d'.node m).calls = (d.node m).calls ∧ d'.read info.ready = d.read info.ready

/-- A walk for `t'` takes the ways of one for `t`: it is the same transaction, or one that comes to its calls by way
of `t`. -/
def Enters (t t' : NodeId) (outer : List NodeId) : Prop := (t' = t ∧ outer = []) ∨ outer = [t]

theorem Enters.head (h : Enters t t' outer) (callers : List NodeId) : (callers ++ outer).headD t' = callers.headD t := by
  rcases h with ⟨rfl, rfl⟩ | rfl
  · rw [List.append_nil]
  · cases callers <;> rfl

theorem Enters.fork (h : Enters t t' outer) (m : NodeId) (as bs : List NodeId) :
    fork m t' (as ++ outer).reverse (bs ++ outer).reverse = fork m t as.reverse bs.reverse := by
  rcases h with ⟨rfl, rfl⟩ | rfl
  · rw [List.append_nil, List.append_nil]
  · rw [List.reverse_append, List.reverse_append]
    exact if_pos rfl

variable {callers : List NodeId}

/-- Ways that may be gone beside each other stay so. -/
theorem Keeps.checkSecond (hk : Keeps d d' t) (he : Enters t t' outer) {r' : Reach} {info : MethodInfo}
    (ht : r.transaction = t) (ht' : r'.transaction = t') (hm : r'.method = r.method)
    (hc : r'.callers = r.callers ++ outer) (hinfo : (d.node r.method).method? = some info)
    (hcallers : ∀ c ∈ callers, ∃ info, (d.node c).method? = some info)
    (h : CallMap.checkSecond d r callers = .ok ()) : CallMap.checkSecond d' r' (callers ++ outer) = .ok () := by
  have hnonexclusive : (d'.node r.method).isNonexclusive = (d.node r.method).isNonexclusive := by
    rw [Node.isNonexclusive, Node.isNonexclusive, hinfo, (hk.method _ info hinfo).1]
  have hparent := fork_parent r.method t r.callers.reverse callers.reverse
  unfold CallMap.checkSecond at h ⊢
  rw [ht', hm, hc, he.fork, hnonexclusive]
  rw [ht] at h
  split at h
  · rw [if_pos ‹_›]
  · rw [if_neg ‹_›]
    generalize fork r.method t r.callers.reverse callers.reverse = parting at h hparent ⊢
    obtain ⟨parent, first, second⟩ := parting
    have hsites : (d'.node parent).sitesTo = (d.node parent).sitesTo := by
      have hcalls : (d'.node parent).calls = (d.node parent).calls := by
        rcases List.mem_cons.1 hparent with hroot | hmem
        · obtain rfl : parent = t := hroot
          exact hk.calls
        · obtain ⟨info, hinfo⟩ := hcallers parent (List.mem_reverse.1 hmem)
          exact (hk.method parent info hinfo).2.1
      unfold Node.sitesTo
      rw [hcalls]
    simp only [hsites] at h ⊢
    split at h
    · cases h
    · exact h

/-! ### Walks -/

/-- A walk that comes to an end is followed by another that enters its ways, as long as what the one adds can be
added by the other. -/
theorem visit_follow (hk : Keeps d d' t) (he : Enters t t' outer) (hout : ∀ x ∈ outer, (d.node x).method? = none)
    {R : CallMap → CallMap → Prop}
    (hadd : ∀ callers m info condition map map' map₁, d.Way t callers m → (d.node m).method? = some info →
      R map map' → map.add d ⟨t, m, callers, condition⟩ = .ok map₁ →
      ∃ map₁', map'.add d' ⟨t', m, callers ++ outer, condition⟩ = .ok map₁' ∧ R map₁ map₁') :
    ∀ (fuel : Nat) (callers : List NodeId) (env : Bindings) (map map' map₁ : CallMap),
      (∀ c rest, callers = c :: rest → d.Way t rest c) → R map map' →
      Attempt.Gives (visit d t fuel callers env map) map₁ →
      ∃ map₁', Attempt.Gives (visit d' t' fuel (callers ++ outer) env map') map₁' ∧ R map₁ map₁' := by
  intro fuel
  induction fuel with
  | zero =>
    intro callers env map map' map₁ _ hR h
    obtain rfl := Attempt.gives_pure.1 h
    exact ⟨map', Attempt.gives_pure.2 rfl, hR⟩
  | succ fuel ih =>
    intro callers env map map' map₁ hway hR h
    have hcalls : (d'.node ((callers ++ outer).headD t')).calls = (d.node (callers.headD t)).calls := by
      rw [he.head]
      rcases callers with _ | ⟨c, rest⟩
      · exact hk.calls
      · obtain ⟨info, hinfo⟩ := (hway c rest rfl).calls.2
        exact (hk.method c info hinfo).2.1
    rw [visit] at h ⊢
    rw [hcalls]
    refine Attempt.gives_foldlM_follow (fun call hcall map map' map₁ hgives hR => ?_) h hR
    obtain ⟨m, sites⟩ := call
    obtain ⟨info, hinfo⟩ := hk.callee _ m sites hcall
    obtain ⟨hinfo', -, hread⟩ := hk.method m info hinfo
    have hwaym := way_of_call hway hcall hinfo
    simp only [hinfo, Attempt.gives_guard, Attempt.gives_bind, Attempt.gives_ofChecked, Attempt.gives_ofExcept] at hgives
    obtain ⟨hnew, condition, hcondition, map₂, hadded, hvisit⟩ := hgives
    obtain ⟨map₂', hadded', hR₂⟩ := hadd callers m info condition map map' map₂ hwaym hinfo hR hadded
    obtain ⟨map₁', hvisit', hR₁⟩ := ih (m :: callers) _ map₂ map₂' map₁ (fun c rest hcr => by
      obtain ⟨rfl, rfl⟩ := List.cons.inj hcr
      exact hwaym) hR₂ hvisit
    refine ⟨map₁', ?_, hR₁⟩
    have hnew' : m ∉ callers ++ outer := by
      rw [List.mem_append, not_or]
      exact ⟨hnew, fun hm => Option.some_ne_none info (hinfo.symm.trans (hout m hm))⟩
    simp only [hinfo', hread, Attempt.gives_guard, Attempt.gives_bind, Attempt.gives_ofChecked, Attempt.gives_ofExcept]
    exact ⟨hnew', condition, hcondition, map₂', hadded', hvisit'⟩

/-- The entries of a transaction come out the same where they have been the same. -/
theorem visit_entries (hk : Keeps d d' t) {fuel : Nat} {map₁ : CallMap} (hR : map'.entriesOf t = map.entriesOf t)
    (h : Attempt.Gives (visit d t fuel [] [] map) map₁) :
    ∃ map₁', Attempt.Gives (visit d' t fuel [] [] map') map₁' ∧ map₁'.entriesOf t = map₁.entriesOf t := by
  have he : Enters t t [] := .inl ⟨rfl, rfl⟩
  refine visit_follow (R := fun map map' => map'.entriesOf t = map.entriesOf t) hk he (fun _ h => nomatch h)
    (fun callers m info condition map map' map₁ hway hinfo hR hadd => ?_) fuel [] [] map map' map₁
    (fun _ _ h => nomatch h) hR h
  rw [List.append_nil]
  rcases add_ok_iff.1 hadd with ⟨hnone, rfl⟩ | ⟨prev, hprev, hcheck, rfl⟩
  · refine ⟨_, add_ok_iff.2 (.inl ⟨?_, rfl⟩), ?_⟩
    · rwa [find?_eq, hR, ← find?_eq]
    · unfold entriesOf at hR ⊢
      rw [List.filter_append, List.filter_append, hR]
  · obtain ⟨hpt, hpm⟩ := find?_key hprev
    have hcheck' := hk.checkSecond he hpt hpt rfl (List.append_nil _).symm (show _ = some info from hpm ▸ hinfo)
      (fun c hc => hway.method_of_mem (List.mem_cons_of_mem _ hc)) hcheck
    rw [List.append_nil] at hcheck'
    refine ⟨_, add_ok_iff.2 (.inr ⟨prev, ?_, hcheck', rfl⟩), ?_⟩
    · rwa [find?_eq, hR, ← find?_eq]
    · rw [entriesOf_narrowed, entriesOf_narrowed, hR]

/-! ### One transaction at a time -/

/-- Whatever a design calls is a method. -/
def CallsMethods (d : Design) : Prop :=
  ∀ c m sites, (m, sites) ∈ (d.node c).calls → ∃ info, (d.node m).method? = some info

theorem Keeps.refl (h : CallsMethods d) (t : NodeId) : Keeps d d t :=
  ⟨rfl, h, fun _ _ hinfo => ⟨hinfo, rfl, rfl⟩⟩

/-- The walk of another transaction. -/
theorem visit_entries_of_ne (hne : u ≠ t) (h : Attempt.Gives (visit d t (d.nodes.size + 1) [] [] map) map') :
    map'.entriesOf u = map.entriesOf u := by
  have hwalk : Walks d t (fun _ _ => True) (fun map map' => map'.entriesOf u = map.entriesOf u) fun _ _ _ => True :=
    ⟨fun _ => rfl, fun _ _ _ h h' => h'.trans h, fun _ _ _ _ _ h => h, fun _ _ _ _ _ _ _ _ => trivial,
      fun _ _ _ _ _ _ _ _ _ _ _ _ _ _ hadd => ⟨entriesOf_add_of_ne hadd hne, trivial⟩⟩
  exact (visit_walk hwalk _ [] [] map map' h trivial (fun _ _ h => nomatch h) List.nodup_nil
    (fun _ hc => nomatch hc) rfl).1

variable {ts : List NodeId}

/-- The walks of some transactions, one after another. -/
def visitAll (d : Design) (ts : List NodeId) (map : CallMap) : Attempt DesignError CallMap :=
  ts.foldlM (fun map t => visit d t (d.nodes.size + 1) [] [] map) map

theorem visitAll_cons : Attempt.Gives (visitAll d (t :: ts) map) map' ↔
    ∃ map₁, Attempt.Gives (visit d t (d.nodes.size + 1) [] [] map) map₁ ∧ Attempt.Gives (visitAll d ts map₁) map' := by
  rw [visitAll, List.foldlM_cons, Attempt.gives_bind]
  rfl

/-- Each walk gives the entries that it would give by itself, and the others leave these as they are. -/
theorem visitAll_entries (hc : CallsMethods d) (hts : ts.Nodup) (h : Attempt.Gives (visitAll d ts map) map') :
    (∀ u, u ∉ ts → map'.entriesOf u = map.entriesOf u) ∧
      ∀ t ∈ ts, ∃ map₁, Attempt.Gives (visit d t (d.nodes.size + 1) [] [] map) map₁ ∧
        map'.entriesOf t = map₁.entriesOf t := by
  induction ts generalizing map with
  | nil =>
    obtain rfl := Attempt.gives_pure.1 h
    exact ⟨fun _ _ => rfl, fun _ ht => nomatch ht⟩
  | cons t ts ih =>
    obtain ⟨map₁, hvisit, hrest⟩ := visitAll_cons.1 h
    obtain ⟨hnot, hts⟩ := List.nodup_cons.1 hts
    obtain ⟨hothers, heach⟩ := ih hts hrest
    refine ⟨fun u hu => ?_, fun u hu => ?_⟩
    · rw [List.mem_cons, not_or] at hu
      exact (hothers u hu.2).trans (visit_entries_of_ne hu.1 hvisit)
    · rcases List.mem_cons.1 hu with rfl | hu
      · exact ⟨map₁, hvisit, hothers u hnot⟩
      · obtain ⟨map₂, hvisit₂, he⟩ := heach u hu
        have hne : u ≠ t := fun he => hnot (he ▸ hu)
        obtain ⟨map₃, hvisit₃, he₃⟩ := visit_entries (.refl hc u) (visit_entries_of_ne hne hvisit).symm hvisit₂
        exact ⟨map₃, hvisit₃, he.trans he₃.symm⟩

/-- Walks that come to an end by themselves do so one after another. -/
theorem exists_visitAll (hc : CallsMethods d) (hts : ts.Nodup)
    (h : ∀ t ∈ ts, ∃ map₁, Attempt.Gives (visit d t (d.nodes.size + 1) [] [] map) map₁) :
    ∃ map', Attempt.Gives (visitAll d ts map) map' := by
  induction ts generalizing map with
  | nil => exact ⟨map, Attempt.gives_pure.2 rfl⟩
  | cons t ts ih =>
    obtain ⟨map₁, hvisit⟩ := h t (List.mem_cons_self ..)
    obtain ⟨hnot, hts⟩ := List.nodup_cons.1 hts
    obtain ⟨map', hrest⟩ : ∃ map', Attempt.Gives (visitAll d ts map₁) map' := ih hts fun u hu => by
      obtain ⟨map₂, hvisit₂⟩ := h u (List.mem_cons_of_mem _ hu)
      have hne : u ≠ t := fun he => hnot (he ▸ hu)
      obtain ⟨map₃, hvisit₃, -⟩ := visit_entries (.refl hc u) (visit_entries_of_ne hne hvisit) hvisit₂
      exact ⟨map₃, hvisit₃⟩
    exact ⟨map', visitAll_cons.2 ⟨map₁, hvisit, hrest⟩⟩

end CallMap

end Interlock
