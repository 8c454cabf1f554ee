import Mathlib.Data.Finset.Prod
import Mathlib.Data.Finset.Range
import OrderedBnf.Proofs.Match.History

/-!
# Left recursion

A rule that is attempted at an offset while an attempt of it at the same offset is
under way needs itself, and nothing has been read since. Such a run cannot end
without having reached its limit: what happens in an attempt depends on the rule and
the cursor alone, so the inner attempt would have to be as long as the outer one,
which it is a part of (`History.not_reenters`).

The limit is reached for no other reason if it is high enough. When a rule is refused
there are as many attempts under way as there are levels, all of them different, and
there are only so many rules and so many offsets (`History.quiet_of_not_reenters`).
-/

namespace OrderedBnf

/-! ## Attempts under way -/

/-- The attempt that is made with an event: a rule and an offset. A rule that is
refused has been attempted. -/
def Event.attempt? : Event → Option (String × Nat)
  | .enter rule offset | .tooDeep rule offset => some (rule, offset)
  | _ => none

/-- The attempts under way after an event, given those before it, the innermost first. -/
def Event.activate (active : List (String × Nat)) : Event → List (String × Nat)
  | .enter rule offset => (rule, offset) :: active
  | .leave => active.tail
  | _ => active

/-- **Each event with the attempts that are under way when it happens**, given those
under way at first. -/
def moments (active : List (String × Nat)) : List Event → List (List (String × Nat) × Event)
  | [] => []
  | event :: events => (active, event) :: moments (event.activate active) events

/-- **A rule is attempted anew**: at an offset, while an earlier attempt of it at that
offset is still under way. -/
def Reenters (events : List Event) : Prop :=
  ∃ moment ∈ moments [] events, ∃ attempt ∈ moment.2.attempt?, attempt ∈ moment.1

instance : DecidablePred Reenters := fun events =>
  inferInstanceAs
    (Decidable (∃ moment ∈ moments [] events, ∃ attempt ∈ moment.2.attempt?, attempt ∈ moment.1))

variable {active : List (String × Nat)} {events later : List Event} {event : Event}
variable {rule : String} {offset : Nat}

theorem moments_append : moments active (events ++ later) =
    moments active events ++ moments (events.foldl Event.activate active) later := by
  induction events generalizing active with
  | nil => rfl
  | cons event events ih => rw [List.cons_append, moments, moments, ih]; rfl

/-- What is under way was so at first or has been entered since. -/
theorem mem_or_enter_mem {moment : List (String × Nat) × Event}
    (h : moment ∈ moments active events) :
    moment.2 ∈ events ∧ ∀ attempt ∈ moment.1, attempt ∈ active ∨
      .enter attempt.1 attempt.2 ∈ events := by
  induction events generalizing active with
  | nil => cases h
  | cons event events ih =>
    rcases List.mem_cons.1 h with rfl | h
    · exact ⟨List.mem_cons_self .., fun _ hmem => .inl hmem⟩
    · obtain ⟨hevent, hall⟩ := ih h
      refine ⟨List.mem_cons_of_mem _ hevent, fun attempt hmem => ?_⟩
      rcases hall attempt hmem with hactive | henter
      · cases event with
        | enter rule offset =>
          rcases List.mem_cons.1 hactive with rfl | hactive
          · exact .inr (List.mem_cons_self ..)
          · exact .inl hactive
        | leave => exact .inl (List.mem_of_mem_tail hactive)
        | tooDeep | miss | unresolved => exact .inl hactive
      · exact .inr (List.mem_cons_of_mem _ henter)

/-- Each event has its moment. -/
theorem exists_moment_of_mem (h : event ∈ events) :
    ∃ now, (now, event) ∈ moments active events := by
  induction events generalizing active with
  | nil => cases h
  | cons first events ih =>
    rcases List.mem_cons.1 h with rfl | h
    · exact ⟨active, List.mem_cons_self ..⟩
    · obtain ⟨now, hnow⟩ := ih h
      exact ⟨now, List.mem_cons_of_mem _ hnow⟩

/-- Where nothing is attempted anew the attempts under way are all different. -/
theorem nodup_of_not_reenters (hactive : active.Nodup)
    (h : ∀ moment ∈ moments active events, ∀ attempt, moment.2.attempt? = some attempt →
      attempt ∉ moment.1) : ∀ moment ∈ moments active events, moment.1.Nodup := by
  induction events generalizing active with
  | nil => simp [moments]
  | cons event events ih =>
    obtain ⟨hfirst, hlater⟩ := List.forall_mem_cons.1 h
    refine List.forall_mem_cons.2 ⟨hactive, ih ?_ hlater⟩
    cases event with
    | enter rule offset => exact List.nodup_cons.2 ⟨hfirst _ rfl, hactive⟩
    | leave => exact hactive.tail
    | tooDeep | miss | unresolved => exact hactive

/-! ## The attempts of a run -/

namespace History

variable {g : Grammar} {first c : Cursor} {n k : Nat} {o : Option Match} {d : Definition}

/-- What is entered in a run is left in it. -/
theorem foldl_activate (h : History g first n events) :
    events.foldl Event.activate active = active := by
  induction h generalizing active with
  | nil | miss | unresolved | tooDeep => rfl
  | append _ _ ih ihlater => rw [List.foldl_append, ih, ihlater]
  | attempt _ _ _ _ ih =>
    rw [List.cons_append, List.foldl_cons, List.foldl_append, ih]
    rfl

/-- What is under way around a run stays so. -/
theorem moments_eq_map (h : History g first n events) :
    moments active events =
      (moments [] events).map fun moment => (moment.1 ++ active, moment.2) := by
  induction h generalizing active with
  | nil | miss | unresolved | tooDeep => rfl
  | append hfirst _ ih ihlater =>
    rw [moments_append, moments_append, hfirst.foldl_activate, hfirst.foldl_activate, ih, ihlater,
      List.map_append]
  | attempt _ _ _ hinner ih =>
    rw [List.cons_append, moments, moments, moments_append, moments_append,
      hinner.foldl_activate, hinner.foldl_activate, Event.activate, Event.activate, ih,
      @ih [_]]
    simp [moments, Function.comp_def]

/-- **What was attempted at an offset ran there**, with fewer levels and in fewer events. -/
theorem exists_runs_of_enter_mem (h : History g first n events)
    (he : .enter rule offset ∈ events) :
    ∃ k d c o inner, k < n ∧ g.InForce rule d ∧ first.Reaches c ∧ c.offset = offset ∧
      Runs g k (.choice d.alternatives) c o inner ∧ inner <:+: events ∧
      inner.length < events.length := by
  induction h with
  | nil | miss | unresolved | tooDeep => simp at he
  | @append n events later _ _ ih ihlater =>
    rcases List.mem_append.1 he with he | he
    · obtain ⟨k, d, c, o, inner, hk, hd, hc, ho, hruns, hinside, hlt⟩ := ih he
      exact ⟨k, d, c, o, inner, hk, hd, hc, ho, hruns,
        hinside.trans (List.prefix_append events later).isInfix,
        by rw [List.length_append]; omega⟩
    · obtain ⟨k, d, c, o, inner, hk, hd, hc, ho, hruns, hinside, hlt⟩ := ihlater he
      exact ⟨k, d, c, o, inner, hk, hd, hc, ho, hruns,
        hinside.trans (List.suffix_append events later).isInfix,
        by rw [List.length_append]; omega⟩
  | @attempt n d c o inner hd hc hruns _ ih =>
    have hinside : inner <:+: .enter d.name c.offset :: inner ++ [.leave] :=
      ⟨[.enter d.name c.offset], [.leave], rfl⟩
    have hlength : (Event.enter d.name c.offset :: inner ++ [Event.leave]).length =
        inner.length + 2 := by
      rw [List.length_append, List.length_cons, List.length_singleton]
    rcases List.mem_cons.1 he with heq | he
    · obtain ⟨rfl, rfl⟩ := Event.enter.inj heq
      exact ⟨n, d, c, o, inner, Nat.lt_succ_self n, hd, hc, rfl, hruns, hinside, by omega⟩
    · obtain ⟨k, d', c', o', inner', hk, hd', hc', ho', hruns', hinside', hlt⟩ :=
        ih (by simpa using he)
      exact ⟨k, d', c', o', inner', by omega, hd', hc', ho', hruns', hinside'.trans hinside,
        by omega⟩

/-- In an attempt that does not reach the limit the same is not attempted again. -/
theorem enter_not_mem (hd : g.InForce d.name d) (hc : first.Reaches c)
    (hruns : Runs g n (.choice d.alternatives) c o events) (h : History g first n events)
    (hquiet : ∀ rule offset, Event.tooDeep rule offset ∉ events) :
    .enter d.name c.offset ∉ events := by
  intro he
  obtain ⟨k, d', c', o', inner, hk, hd', hc', ho', hruns', hinside, hlt⟩ :=
    h.exists_runs_of_enter_mem he
  obtain rfl : d = d' := Option.some.inj <|
    (Grammar.find?_eq_some_iff.2 hd).symm.trans (Grammar.find?_eq_some_iff.2 hd')
  obtain rfl : c = c' := hc.eq hc' ho'.symm
  -- the inner run would be the same as the outer one, and is shorter
  have hsame := hruns'.mono (Nat.le_of_lt hk) fun rule offset hmem =>
    hquiet rule offset (hinside.subset hmem)
  rw [(hsame.unique hruns).2] at hlt
  exact Nat.lt_irrefl _ hlt

/-- **Left recursion reaches the limit**, whatever the limit is. -/
theorem not_reenters (h : History g first n events)
    (hquiet : ∀ rule offset, Event.tooDeep rule offset ∉ events) :
    ∀ moment ∈ moments [] events, ∀ attempt, moment.2.attempt? = some attempt →
      attempt ∉ moment.1 := by
  induction h with
  | nil => simp [moments]
  | miss | unresolved | tooDeep => simp [moments]
  | append hfirst _ ih ihlater =>
    simp only [List.mem_append, not_or, forall_and] at hquiet
    rw [moments_append, hfirst.foldl_activate, List.forall_mem_append]
    exact ⟨ih hquiet.1, ihlater hquiet.2⟩
  | @attempt n d c o inner hd hc hruns hinner ih =>
    have hquiet' : ∀ rule offset, Event.tooDeep rule offset ∉ inner := fun rule offset hmem =>
      hquiet rule offset (by simp [hmem])
    have hnot := enter_not_mem hd hc hruns hinner hquiet'
    rw [List.cons_append, moments, moments_append, hinner.foldl_activate, List.forall_mem_cons,
      List.forall_mem_append]
    refine ⟨by simp, fun moment hmoment attempt hattempt => ?_, by simp [moments, Event.attempt?]⟩
    rw [Event.activate, hinner.moments_eq_map] at hmoment
    obtain ⟨⟨active, event⟩, hmem, rfl⟩ := List.mem_map.1 hmoment
    -- what is under way is the attempt itself and what is so inside it
    simp only [List.mem_append, List.mem_singleton, not_or]
    refine ⟨ih hquiet' _ hmem attempt hattempt, ?_⟩
    rintro rfl
    have hevent := (mem_or_enter_mem hmem).1
    cases event with
    | enter rule offset =>
      obtain ⟨rfl, rfl⟩ := Prod.mk.inj (Option.some.inj hattempt)
      exact hnot hevent
    | tooDeep rule offset => exact hquiet' rule offset hevent
    | leave | miss | unresolved => cases hattempt

/-! ## High limits -/

/-- When a rule is refused, as many attempts are under way as there are levels. -/
theorem length_of_tooDeep_mem (h : History g first n events)
    (he : (active, Event.tooDeep rule offset) ∈ moments [] events) : active.length = n := by
  induction h generalizing active with
  | nil => cases he
  | miss | unresolved => simp [moments] at he
  | tooDeep =>
    obtain rfl : active = [] := by simp_all [moments]
    rfl
  | append hfirst _ ih ihlater =>
    rw [moments_append, hfirst.foldl_activate, List.mem_append] at he
    exact he.elim ih ihlater
  | attempt _ _ _ hinner ih =>
    rw [List.cons_append, moments, moments_append, hinner.foldl_activate, Event.activate,
      hinner.moments_eq_map] at he
    simp only [List.mem_cons, Prod.mk.injEq, reduceCtorEq, and_false, false_or, List.mem_append,
      List.mem_map, moments, List.not_mem_nil, or_false] at he
    obtain ⟨⟨active', event⟩, hmem, rfl, rfl⟩ := he
    rw [List.length_append, ih hmem, List.length_singleton]

/-- What is attempted is a rule of the grammar, at an offset of the text. -/
theorem exists_of_attempt (h : History g first n events) (he : event ∈ events)
    (hattempt : event.attempt? = some (rule, offset)) :
    (∃ d, g.InForce rule d) ∧ ∃ c, first.Reaches c ∧ c.offset = offset := by
  induction h with
  | nil => cases he
  | miss | unresolved =>
    obtain rfl := List.mem_singleton.1 he
    cases hattempt
  | tooDeep hd hc =>
    obtain rfl := List.mem_singleton.1 he
    obtain ⟨rfl, rfl⟩ := Prod.mk.inj (Option.some.inj hattempt)
    exact ⟨⟨_, hd⟩, _, hc, rfl⟩
  | append _ _ ih ihlater => exact (List.mem_append.1 he).elim ih ihlater
  | attempt hd hc _ _ ih =>
    simp only [List.cons_append, List.mem_cons, List.mem_append, List.not_mem_nil, or_false] at he
    rcases he with rfl | he | rfl
    · obtain ⟨rfl, rfl⟩ := Prod.mk.inj (Option.some.inj hattempt)
      exact ⟨⟨_, hd⟩, _, hc, rfl⟩
    · exact ih he
    · cases hattempt

/-- **Nothing else reaches a high limit.** With a level for every rule at every offset
a run reaches the limit only if it attempts something anew. -/
theorem quiet_of_not_reenters {text : List Char} (h : History g (Cursor.start text) n events)
    (hn : (g.map Definition.name).toFinset.card * (byteLength text + 1) ≤ n)
    (hevents : ¬ Reenters events) : ∀ rule offset, Event.tooDeep rule offset ∉ events := by
  intro rule offset he
  obtain ⟨active, hmoment⟩ := exists_moment_of_mem he
  have hfresh : ∀ moment ∈ moments [] events, ∀ attempt, moment.2.attempt? = some attempt →
      attempt ∉ moment.1 :=
    fun moment hmem attempt hattempt hactive => hevents ⟨moment, hmem, attempt, hattempt, hactive⟩
  -- with the rule that is refused these are one more than there are levels
  have hnodup : ((rule, offset) :: active).Nodup :=
    List.nodup_cons.2 ⟨hfresh _ hmoment _ rfl, nodup_of_not_reenters .nil hfresh _ hmoment⟩
  have hlength : ((rule, offset) :: active).length = n + 1 := by
    rw [List.length_cons, h.length_of_tooDeep_mem hmoment]
  have hplace : ∀ attempt ∈ (rule, offset) :: active,
      attempt ∈ (g.map Definition.name).toFinset ×ˢ Finset.range (byteLength text + 1) := by
    intro attempt hmem
    obtain ⟨event, hevent, hattempt⟩ : ∃ event ∈ events, event.attempt? = some attempt := by
      rcases List.mem_cons.1 hmem with rfl | hmem
      · exact ⟨_, he, rfl⟩
      · rcases (mem_or_enter_mem hmoment).2 attempt hmem with hnil | henter
        · cases hnil
        · exact ⟨_, henter, rfl⟩
    obtain ⟨⟨d, hd⟩, c, hc, ho⟩ := h.exists_of_attempt hevent hattempt
    obtain ⟨taken, hr, hbytes⟩ := hc
    have hle : attempt.2 ≤ byteLength text := by
      rw [← ho, hbytes, show text = taken ++ c.rest from hr, byteLength_append]
      simp [Cursor.start]
    simp only [Finset.mem_product, List.mem_toFinset, List.mem_map, Finset.mem_range]
    exact ⟨⟨d, hd.mem, hd.name_eq⟩, by omega⟩
  have hcard := Finset.card_le_card fun attempt hmem => hplace attempt (List.mem_toFinset.1 hmem)
  rw [List.toFinset_card_of_nodup hnodup, hlength, Finset.card_product, Finset.card_range] at hcard
  omega

end History

end OrderedBnf
