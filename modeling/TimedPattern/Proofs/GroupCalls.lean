import TimedPattern.Aggregate.Groups
import TimedPattern.Proofs.MergeOrder

/-!
# Groups on their own

A group of a query is the collector that only gets the calls meant for this group.
-/

namespace TimedPattern

/-! ## Calls -/

namespace Collector

inductive Call where
  | offer (text : String)
  | record (micros : Int) (behavior : String)
  | merge (other : Collector)
  | ask (function : Aggregate)

def call (c : Collector) : Call → Collector
  | .offer text => c.offerPattern text
  | .record micros behavior => c.record micros behavior
  | .merge other => c.merge other
  | .ask function => c.asked function

def called (calls : List Call) : Collector := calls.foldl call .empty

theorem called_append (calls more : List Call) :
    called (calls ++ more) = more.foldl call (called calls) := List.foldl_append

theorem Reached.foldl_call {c : Collector} (h : c.Reached) {calls : List Call}
    (hmerge : ∀ other, .merge other ∈ calls → other.Reached) : (calls.foldl call c).Reached := by
  induction calls generalizing c with
  | nil => exact h
  | cons first rest ih =>
    apply ih
    · cases first with
      | offer text => exact h.offerPattern text
      | record micros behavior => exact h.record micros behavior
      | merge other => exact h.merge (hmerge other (List.mem_cons_self ..))
      | ask function => exact h.asked function
    · intro other hother
      exact hmerge other (List.mem_cons_of_mem _ hother)

end Collector

/-- A row offers its pattern, even if it is skipped otherwise. It is recorded only if it has both a
time and a behavior. -/
def Delivery.calls (d : Delivery) : List Collector.Call :=
  (text? d.pattern).toList.map .offer ++
    match d.micros, text? d.behavior with
    | some micros, some behavior => [.record micros behavior]
    | _, _ => []

theorem Collector.foldl_call_calls (c : Collector) (d : Delivery) :
    d.calls.foldl call c = c.accept d := by
  unfold Delivery.calls accept
  rw [List.foldl_append]
  cases Delivery.text? d.pattern <;> cases d.micros <;> cases Delivery.text? d.behavior <;> rfl

/-! ## Patterns that cannot be read -/

theorem Collector.Holds.unreadable_iff {c : Collector} {offered : Option String}
    {rows : List (Int × String)} (h : c.Holds offered rows) :
    (∃ e, c.findMatches.1 = .error e) ↔
      ∃ e, (Pattern.parse {} .empty (c.text.getD "")).1 = .error e := by
  have hsays := h.sort.pattern_says .empty
  rw [← h.text] at hsays
  unfold Collector.findMatches
  dsimp only
  generalize c.sort.pattern.1 = x, (Pattern.parse {} .empty (c.text.getD "")).1 = y at hsays ⊢
  cases hsays with
  | error e => exact ⟨fun _ => ⟨e, rfl⟩, fun _ => ⟨e, rfl⟩⟩
  | ok _ => simp [Except.map]

theorem Collector.toOption_answer_eq_none_iff {α : Type} {f : List (List Nat) → α} (c : Collector) :
    (c.findMatches.1.map f).toOption = none ↔ ∃ e, c.findMatches.1 = .error e := by
  cases c.findMatches.1 <;> simp [Except.map, Except.toOption]

namespace Groups

/-! ## What happens to groups -/

/-- What a query does to one group. -/
inductive Operation where
  | accept (d : Delivery)
  | merge (source target : Nat)
  | destroy (group : Nat)
  | ask (function : Aggregate) (group : Nat)

/-- What a query does at once, to any number of groups. -/
inductive Batch where
  | update (rows : List Delivery)
  | combine (pairs : List (Nat × Nat))
  | destroy (groups : List Nat)
  | finalize (function : Aggregate) (groups : List Nat)

def Operation.group : Operation → Nat
  | accept d => d.group
  | merge _ target => target
  | destroy group => group
  | ask _ group => group

def Batch.operations : Batch → List Operation
  | update rows => rows.map .accept
  | combine pairs => pairs.map fun pair => .merge pair.1 pair.2
  | destroy groups => groups.map .destroy
  | finalize function groups => groups.map (.ask function)

/-- The groups after a batch. -/
def after (gs : Groups) : Batch → Groups
  | .update rows => gs.update rows
  | .combine pairs => gs.combine pairs
  | .destroy groups => gs.destroy groups
  | .finalize .found groups => (finalize Collector.hasMatch gs groups).2
  | .finalize .count groups => (finalize Collector.countMatches gs groups).2
  | .finalize .events groups => (finalize Collector.firstMatch gs groups).2

/-- All operations of some batches, the latest one first. -/
def log (batches : List Batch) : List Operation := (batches.flatMap Batch.operations).reverse

/-! ## One group on its own -/

def destroyed (log : List Operation) (group : Nat) : Bool :=
  log.any fun
    | .destroy g => g = group
    | _ => false

/-- The calls of the collector of a group in an operation on this group. A merge calls it if the
source is still there. -/
def Operation.calls (collector? : Nat → Option Collector) : Operation → List Collector.Call
  | accept d => d.calls
  | merge source _ => (collector? source).toList.map .merge
  | destroy _ => []
  | ask function _ => [.ask function]

/-- All calls that are meant for a group. The source of a merge is what the calls for it have made
of it by then. -/
def calls (n : Nat) : List Operation → Nat → List Collector.Call
  | [], _ => []
  | o :: earlier, group =>
    let alone g :=
      if g < n ∧ ¬ destroyed earlier g then some (Collector.called (calls n earlier g)) else none
    calls n earlier group ++ if o.group = group then o.calls alone else []

/-- A collector that gets the calls for one group only. There is none once it is destroyed. -/
def alone (n : Nat) (log : List Operation) (group : Nat) : Option Collector :=
  if group < n ∧ ¬ destroyed log group then some (.called (calls n log group)) else none

/-! ## One operation -/

/-- What an operation makes of its group. -/
def Operation.effect (collector? : Nat → Option Collector) : Operation → Option Collector
  | destroy _ => none
  | o => (collector? o.group).map fun c => (o.calls collector?).foldl Collector.call c

theorem Operation.effect_of_ne {o : Operation} (h : ∀ g, o ≠ .destroy g)
    (collector? : Nat → Option Collector) :
    o.effect collector? =
      (collector? o.group).map fun c => (o.calls collector?).foldl Collector.call c := by
  cases o with
  | destroy g => exact absurd rfl (h g)
  | _ => rfl

def perform (gs : Groups) : Operation → Groups
  | .accept d => gs.accept d
  | .merge source target => gs.mergeInto (source, target)
  | .destroy group => gs.set group none
  | .ask function group => gs.modify group (Option.map (·.asked function))

variable {gs : Groups}

theorem getElem?_of_group? {i : Nat} {c : Collector} (h : gs.group? i = some c) :
    gs[i]? = some (some c) := by
  unfold group? at h
  cases hfound : gs[i]? with
  | none =>
    rw [hfound] at h
    simp at h
  | some found =>
    rw [hfound] at h
    exact congrArg some h

theorem lt_length {i : Nat} {c : Collector} (h : gs.group? i = some c) : i < gs.length :=
  (List.getElem?_eq_some_iff.1 (getElem?_of_group? h)).1

theorem group?_set (i j : Nat) (c : Option Collector) (h : c = none ∨ i < gs.length) :
    group? (gs.set i c) j = if i = j then c else gs.group? j := by
  unfold group?
  rw [List.getElem?_set]
  split
  · split
    · rfl
    · rename_i hlength
      rcases h with rfl | h
      · rfl
      · exact absurd h hlength
  · rfl

theorem group?_modify (i j : Nat) (f : Collector → Collector) :
    group? (gs.modify i (Option.map f)) j =
      if i = j then (gs.group? i).map f else gs.group? j := by
  unfold group?
  rw [List.getElem?_modify]
  split
  · rename_i h
    subst h
    cases gs[i]? with
    | none => rfl
    | some c => cases c <;> rfl
  · cases gs[j]? <;> rfl

theorem group?_mergeInto (source target group : Nat) :
    group? (gs.mergeInto (source, target)) group =
      if target = group then (Operation.merge source target).effect gs.group?
      else gs.group? group := by
  unfold mergeInto
  rw [Operation.effect_of_ne (by simp)]
  unfold Operation.calls Operation.group
  dsimp only
  have hkept : gs.group? group = if target = group then gs.group? target else gs.group? group := by
    split
    · rename_i h
      rw [h]
    · rfl
  cases htarget : gs.group? target with
  | none =>
    rw [htarget] at hkept
    cases gs.group? source <;> exact hkept
  | some t =>
    cases gs.group? source with
    | none =>
      rw [htarget] at hkept
      exact hkept
    | some s => exact group?_set _ _ _ (.inr (lt_length htarget))

theorem group?_perform (gs : Groups) (o : Operation) (group : Nat) :
    (gs.perform o).group? group =
      if o.group = group then o.effect gs.group? else gs.group? group := by
  cases o with
  | accept d =>
    rw [Operation.effect_of_ne (by simp)]
    unfold Operation.calls
    simp only [Collector.foldl_call_calls]
    exact group?_modify ..
  | merge source target => exact group?_mergeInto ..
  | destroy g => exact group?_set _ _ _ (.inl rfl)
  | ask function g => exact group?_modify ..

theorem calls_cons (n : Nat) (o : Operation) (earlier : List Operation) (group : Nat) :
    calls n (o :: earlier) group =
      calls n earlier group ++ if o.group = group then o.calls (alone n earlier) else [] := rfl

theorem destroyed_destroy (earlier : List Operation) (g group : Nat) :
    destroyed (.destroy g :: earlier) group = (decide (g = group) || destroyed earlier group) := rfl

theorem destroyed_cons {o : Operation} (h : ∀ g, o ≠ .destroy g) (earlier : List Operation)
    (group : Nat) : destroyed (o :: earlier) group = destroyed earlier group := by
  cases o with
  | destroy g => exact absurd rfl (h g)
  | _ => rfl

theorem alone_cons (n : Nat) (o : Operation) (earlier : List Operation) (group : Nat) :
    alone n (o :: earlier) group =
      if o.group = group then o.effect (alone n earlier) else alone n earlier group := by
  by_cases hdestroy : ∃ g, o = .destroy g
  · obtain ⟨g, rfl⟩ := hdestroy
    have hcalls : calls n (.destroy g :: earlier) group = calls n earlier group := by
      rw [calls_cons]
      split <;> exact List.append_nil _
    unfold alone
    rw [hcalls, destroyed_destroy]
    by_cases hgroup : g = group
    · simp [hgroup, Operation.group, Operation.effect]
    · simp [hgroup, Operation.group]
  · have ho : ∀ g, o ≠ .destroy g := fun g h => hdestroy ⟨g, h⟩
    by_cases hgroup : o.group = group
    · subst hgroup
      rw [if_pos rfl, Operation.effect_of_ne ho]
      unfold alone
      rw [destroyed_cons ho, calls_cons, if_pos rfl, Collector.called_append]
      split <;> rfl
    · rw [if_neg hgroup]
      unfold alone
      rw [destroyed_cons ho, calls_cons, if_neg hgroup, List.append_nil]

/-! ## Batches -/

theorem modify_of_none {i : Nat} (h : gs.group? i = none) (f : Collector → Collector) :
    gs.modify i (Option.map f) = gs := by
  apply List.ext_getElem?
  intro j
  rw [List.getElem?_modify]
  split
  · rename_i hij
    subst hij
    unfold group? at h
    cases hfound : gs[i]? with
    | none => rfl
    | some found =>
      rw [hfound] at h
      obtain rfl : found = none := h
      rfl
  · cases gs[j]? <;> rfl

theorem modify_of_some {i : Nat} {c : Collector} (h : gs.group? i = some c)
    (f : Collector → Collector) : gs.modify i (Option.map f) = gs.set i (some (f c)) := by
  apply List.ext_getElem?
  intro j
  rw [List.getElem?_modify, List.getElem?_set]
  split
  · rename_i hij
    subst hij
    rw [getElem?_of_group? h, if_pos (lt_length h)]
    rfl
  · cases gs[j]? <;> rfl

section

variable {α : Type} {result : Collector → Except PatternError α × Collector}

theorem finalize_left {function : Aggregate} (hresult : ∀ c, (result c).2 = c.asked function)
    (gs : Groups) (groups : List Nat) :
    (finalize result gs groups).2 = (groups.map (.ask function)).foldl perform gs := by
  induction groups generalizing gs with
  | nil => rfl
  | cons i rest ih =>
    unfold finalize
    rw [List.map_cons, List.foldl_cons, perform]
    cases hgroup : gs.group? i with
    | none =>
      dsimp only
      rw [ih, modify_of_none hgroup]
    | some c =>
      dsimp only
      rw [ih, modify_of_some hgroup, hresult]

end

theorem after_eq (gs : Groups) (b : Batch) : gs.after b = b.operations.foldl perform gs := by
  cases b with
  | update rows =>
    unfold Batch.operations
    rw [List.foldl_map]
    rfl
  | combine pairs =>
    unfold Batch.operations
    rw [List.foldl_map]
    rfl
  | destroy groups =>
    unfold Batch.operations
    rw [List.foldl_map]
    rfl
  | finalize function groups =>
    cases function with
    | found => exact finalize_left (fun _ => rfl) gs groups
    | count => exact finalize_left (fun _ => rfl) gs groups
    | events => exact finalize_left (fun _ => rfl) gs groups

/-- Every group of a query stands where it stands on its own. -/
theorem group?_foldl_after (n : Nat) (batches : List Batch) (group : Nat) :
    (batches.foldl after (fresh n)).group? group = alone n (log batches) group := by
  have hbatches (gs : Groups) :
      batches.foldl after gs = (batches.flatMap Batch.operations).foldl perform gs := by
    induction batches generalizing gs with
    | nil => rfl
    | cons b rest ih =>
      rw [List.foldl_cons, ih, after_eq, List.flatMap_cons, List.foldl_append]
  have hlog (operations : List Operation) (group : Nat) :
      (operations.reverse.foldl perform (fresh n)).group? group = alone n operations group := by
    induction operations generalizing group with
    | nil =>
      unfold group? fresh alone
      rw [List.reverse_nil, List.foldl_nil, List.getElem?_replicate]
      simp only [destroyed, List.any_nil, Bool.false_eq_true, not_false_eq_true, and_true]
      split <;> rfl
    | cons o earlier ih =>
      rw [List.reverse_cons, List.foldl_append, List.foldl_cons, List.foldl_nil, group?_perform,
        alone_cons, ih, funext ih]
  rw [hbatches, ← hlog, log, List.reverse_reverse]

/-! ## Answers -/

theorem Operation.mem_calls_merge {o : Operation} {collector? : Nat → Option Collector}
    {other : Collector} (h : .merge other ∈ o.calls collector?) :
    ∃ group, collector? group = some other := by
  cases o with
  | accept d =>
    unfold calls Delivery.calls at h
    rcases List.mem_append.1 h with h | h
    · simp at h
    · split at h <;> simp at h
  | merge source target =>
    obtain ⟨c, hc, hother⟩ := List.mem_map.1 h
    obtain rfl := Collector.Call.merge.inj hother
    exact ⟨source, Option.mem_toList.1 hc⟩
  | destroy g => simp [calls] at h
  | ask function g => simp [calls] at h

theorem alone_reached {n : Nat} {log : List Operation} {group : Nat} {c : Collector}
    (h : alone n log group = some c) : c.Reached := by
  -- By induction on the log, for all groups at once, since a merge brings in another one.
  induction log generalizing group c with
  | nil =>
    unfold alone at h
    split at h
    · obtain rfl := Option.some.inj h
      exact .empty
    · simp at h
  | cons o earlier ih =>
    rw [alone_cons] at h
    split at h
    · by_cases hdestroy : ∃ g, o = .destroy g
      · obtain ⟨g, rfl⟩ := hdestroy
        simp [Operation.effect] at h
      · rw [Operation.effect_of_ne fun g hg => hdestroy ⟨g, hg⟩] at h
        obtain ⟨before, hbefore, rfl⟩ := Option.map_eq_some_iff.1 h
        apply (ih hbefore).foldl_call
        intro other hother
        obtain ⟨source, hsource⟩ := Operation.mem_calls_merge hother
        exact ih hsource
    · exact ih h

/-- Two collectors, if there are any, that hold the same. -/
def Agree (c? d? : Option Collector) : Prop :=
  Option.Rel (fun c d => ∃ offered rows, c.Holds offered rows ∧ d.Holds offered rows) c? d?

theorem alone_agree (n : Nat) (log : List Operation) (group : Nat) :
    Agree (alone n log group) (alone n log group) := by
  unfold Agree
  cases halone : alone n log group with
  | none => exact .none
  | some c =>
    obtain ⟨offered, rows, hc⟩ := (alone_reached halone).holds
    exact .some ⟨offered, rows, hc, hc⟩

theorem finalize_values {α : Type} {result : Collector → Except PatternError α × Collector}
    (function : Aggregate) (hleft : ∀ c, (result c).2 = c.asked function)
    (hresult : ∀ {c d : Collector} {offered rows}, c.Holds offered rows → d.Holds offered rows →
      (result c).1 = (result d).1)
    {collector? : Nat → Option Collector} (h : ∀ g, Agree (gs.group? g) (collector? g))
    (groups : List Nat) :
    (finalize result gs groups).1 =
      groups.map fun g => (collector? g).bind fun c => (result c).1.toOption := by
  induction groups generalizing gs with
  | nil => rfl
  | cons i rest ih =>
    have hi := h i
    unfold finalize
    rw [List.map_cons]
    generalize hcollector : collector? i = d at hi ⊢
    cases hgroup : gs.group? i with
    | none =>
      rw [hgroup] at hi
      cases hi
      exact congrArg (none :: ·) (ih h)
    | some c =>
      rw [hgroup] at hi
      cases hi with
      | @some _ d hcd =>
        obtain ⟨offered, rows, hc, hd⟩ := hcd
        dsimp only
        rw [hresult hc hd, ih]
        · rfl
        · intro g
          rw [group?_set _ _ _ (.inr (lt_length hgroup)), hleft, Collector.asked_eq]
          split
          · rename_i hig
            rw [← hig, hcollector]
            exact .some ⟨offered, rows, hc.findMatches, hd⟩
          · exact h g

theorem bind_eq_none_iff {n : Nat} {log : List Operation} {group : Nat} {α : Type}
    {result : Collector → Except PatternError α}
    (hresult : ∀ c, (result c).toOption = none ↔ ∃ e, c.findMatches.1 = .error e) :
    ((alone n log group).bind fun c => (result c).toOption) = none ↔
      n ≤ group ∨ destroyed log group = true ∨
        ∃ e, (Pattern.parse {} .empty (((alone n log group).bind Collector.text).getD "")).1 =
          .error e := by
  by_cases hthere : group < n ∧ ¬ destroyed log group
  · obtain ⟨offered, rows, hholds⟩ := (alone_reached (if_pos hthere)).holds
    rw [show alone n log group = some _ from if_pos hthere, Option.bind_some, Option.bind_some,
      hresult, hholds.unreadable_iff]
    simp [Nat.not_le.2 hthere.1, hthere.2]
  · rw [show alone n log group = none from if_neg hthere]
    simp only [Option.bind_none, true_iff]
    by_cases hgroup : group < n
    · exact .inr (.inl (by simpa [hgroup] using hthere))
    · exact .inl (Nat.not_lt.1 hgroup)

/-- After any batches, each group is the collector that got its calls only, and questions find what
this one finds. There is no match and no count exactly for a group that is not there and for one
without a pattern that can be read. -/
theorem finalize_alone (n : Nat) (batches : List Batch) (groups : List Nat) :
    let gs := batches.foldl after (fresh n)
    let alone := alone n (log batches)
    (∀ g, gs.group? g = alone g) ∧
      (finalize Collector.hasMatch gs groups).1 =
        groups.map (fun g => (alone g).bind fun c => c.hasMatch.1.toOption) ∧
      (finalize Collector.countMatches gs groups).1 =
        groups.map (fun g => (alone g).bind fun c => c.countMatches.1.toOption) ∧
      (∀ used, (finalizeLists gs used groups).1 =
        .lay used (groups.map fun g => ((alone g).bind fun c => c.firstMatch.1.toOption).getD [])) ∧
      ∀ g,
        let text := ((alone g).bind Collector.text).getD ""
        (((alone g).bind fun c => c.hasMatch.1.toOption) = none ↔
          n ≤ g ∨ destroyed (log batches) g = true ∨
            ∃ e, (Pattern.parse {} .empty text).1 = .error e) ∧
        (((alone g).bind fun c => c.countMatches.1.toOption) = none ↔
          n ≤ g ∨ destroyed (log batches) g = true ∨
            ∃ e, (Pattern.parse {} .empty text).1 = .error e) := by
  intro gs alone
  have hgroup (g : Nat) : gs.group? g = alone g := group?_foldl_after n batches g
  have hagree (g : Nat) : Agree (gs.group? g) (alone g) := by
    rw [hgroup]
    exact alone_agree n (log batches) g
  have hlists : (finalize Collector.firstMatch gs groups).1 =
      groups.map fun g => (alone g).bind fun c => c.firstMatch.1.toOption :=
    finalize_values .events (fun _ => rfl) (fun hc hd => hc.first_eq hd) hagree groups
  refine ⟨hgroup, ?_, ?_, fun used => ?_, fun g => ⟨?_, ?_⟩⟩
  · apply finalize_values .found (fun _ => rfl) _ hagree
    intro c d offered rows hc hd
    exact (hc.answers_eq hd).1
  · apply finalize_values .count (fun _ => rfl) _ hagree
    intro c d offered rows hc hd
    exact (hc.answers_eq hd).2.1
  · unfold finalizeLists
    dsimp only
    rw [hlists, List.map_map]
    rfl
  · exact bind_eq_none_iff fun c => c.toOption_answer_eq_none_iff
  · exact bind_eq_none_iff fun c => c.toOption_answer_eq_none_iff

end Groups

end TimedPattern
