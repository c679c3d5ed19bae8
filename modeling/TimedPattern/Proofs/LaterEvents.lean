import TimedPattern.Proofs.Stages

/-!
# Later events

A scan that has completed or failed has not looked at any event behind, so it does not matter which
events follow until a scan first runs out.
-/

namespace TimedPattern

/-- Whether the scan has completed or failed, rather than run out of events. -/
def Scan.isDecided (s : Scan) : Bool :=
  match s.ending with
  | .completed _ | .failed => true
  | .ranOut _ _ => false

namespace Expression

variable {e : Expression} {a : Attempt} {events : List Event} {start index : Nat}
variable {progress : Option Progress} {last : Outcome}

theorem scanFrom_append (h : (e.scanFrom start progress last index a events).isDecided = true)
    (more : List Event) :
    e.scanFrom start progress last index a (events ++ more) =
      e.scanFrom start progress last index a events := by
  induction events generalizing progress last index e a with
  | nil => simp [scanFrom, Scan.isDecided] at h
  | cons event rest ih =>
    rw [List.cons_append]
    unfold scanFrom at h ⊢
    dsimp only at h ⊢
    split
    · rfl
    · split
      · rfl
      · rename_i hfailure hcompleted
        rw [if_neg hfailure, if_neg hcompleted] at h
        rw [ih h]

end Expression

namespace Stage

variable {p : Pattern} {events more : List Event} {s t u : Stage}

/-- Whether the next scan completes or fails. -/
def isDecided (events : List Event) (s : Stage) : Bool :=
  s.todo.head?.any fun step => (s.scan events step).isDecided

/-- One stage comes after another by scans that complete or fail. -/
def LeadsDecided (events : List Event) : Stage → Stage → Prop :=
  Relation.ReflTransGen fun s t => s.isDecided events = true ∧ s.next? events = some t

/-! ## One scan -/

theorem lt_length_of_isDecided {step : Expression}
    (h : (s.scan events step).isDecided = true) : s.position < events.length := by
  apply Nat.lt_of_not_le
  intro hle
  rw [scan, List.drop_eq_nil_of_le hle] at h
  simp [Expression.scan, Expression.scanFrom, Scan.isDecided] at h

theorem scan_append {step : Expression} (h : (s.scan events step).isDecided = true)
    (more : List Event) : s.scan (events ++ more) step = s.scan events step := by
  have hlt := lt_length_of_isDecided h
  unfold scan at h ⊢
  rw [List.drop_append_of_le_length (Nat.le_of_lt hlt)]
  exact Expression.scanFrom_append h more

theorem next?_append (h : s.isDecided events = true) (more : List Event) :
    s.next? (events ++ more) = s.next? events := by
  unfold isDecided at h
  unfold next?
  cases htodo : s.todo with
  | nil => rfl
  | cons step rest =>
    rw [htodo, List.head?_cons, Option.any_some] at h
    have hlt := lt_length_of_isDecided h
    have hlonger : s.position < (events ++ more).length := by
      rw [List.length_append]
      omega
    dsimp only
    rw [if_pos hlt, if_pos hlonger, scan_append h]

theorem found_prefix_of_next? (h : s.next? events = some t) : s.found <+: t.found := by
  rcases next?_eq_some h with ⟨scan, hgoes⟩ | ⟨resume, -, rfl⟩
  · rw [hgoes.found]
  · exact List.prefix_append _ _

/-! ## Whole searches -/

theorem LeadsDecided.leads_append (h : s.LeadsDecided events t) (more : List Event) :
    s.Leads (events ++ more) t := by
  induction h with
  | refl => exact .refl
  | tail _ hnext ih =>
    apply Relation.ReflTransGen.tail ih
    rw [next?_append hnext.1, hnext.2]

theorem LeadsDecided.leads (h : s.LeadsDecided events t) : s.Leads events t := by
  have hleads := h.leads_append []
  rwa [List.append_nil] at hleads

theorem Leads.found_prefix (h : s.Leads events t) : s.found <+: t.found := by
  induction h with
  | refl => exact List.prefix_refl _
  | tail _ hnext ih => exact ih.trans (found_prefix_of_next? hnext)

theorem Leads.leads_last (ht : s.Leads events t) (hu : s.Leads events u)
    (hend : u.next? events = none) : t.Leads events u := by
  rcases Relation.ReflTransGen.total_of_right_unique rightUnique_next? ht hu with h | h
  · exact h
  · rw [Leads.eq_of_last h hend]
    exact .refl

theorem Leads.found_eq_findMatches (h : (first p).Leads events s) (hend : s.next? events = none) :
    s.found = p.findMatches events := by
  obtain ⟨u, hu, huend, hfound, -⟩ := first_leads_last p events
  rw [Leads.last_unique h hu hend huend, hfound]

theorem Leads.found_prefix_findMatches (h : (first p).Leads events s) :
    s.found <+: p.findMatches events := by
  obtain ⟨u, hu, hend, hfound, -⟩ := first_leads_last p events
  rw [← hfound]
  exact Leads.found_prefix (Leads.leads_last h hu hend)

theorem exists_leadsDecided (h : s.Leads events u) (hend : u.next? events = none) :
    ∃ t, s.LeadsDecided events t ∧ (t.next? events = none ∨ t.isDecided events = false) := by
  induction h using Relation.ReflTransGen.head_induction_on with
  | refl => exact ⟨u, .refl, .inl hend⟩
  | @head v w hnext _ ih =>
    cases hdecided : v.isDecided events with
    | false => exact ⟨v, .refl, .inr hdecided⟩
    | true =>
      obtain ⟨t, ht, hstop⟩ := ih
      exact ⟨t, .head ⟨hdecided, hnext⟩ ht, hstop⟩

theorem LeadsDecided.eq_of_stop (h : s.LeadsDecided events t)
    (hstop : s.next? events = none ∨ s.isDecided events = false) : s = t := by
  rcases Relation.ReflTransGen.cases_head h with rfl | ⟨u, ⟨hdecided, hnext⟩, -⟩
  · rfl
  · rcases hstop with hstop | hstop
    · simp [hstop] at hnext
    · simp [hstop] at hdecided

theorem LeadsDecided.stop_unique (ht : s.LeadsDecided events t) (hu : s.LeadsDecided events u)
    (htstop : t.next? events = none ∨ t.isDecided events = false)
    (hustop : u.next? events = none ∨ u.isDecided events = false) : t = u := by
  have hunique : Relator.RightUnique fun s t : Stage =>
      s.isDecided events = true ∧ s.next? events = some t :=
    fun _ _ _ ht hu => rightUnique_next? ht.2 hu.2
  rcases Relation.ReflTransGen.total_of_right_unique hunique ht hu with h | h
  · exact LeadsDecided.eq_of_stop h htstop
  · exact (LeadsDecided.eq_of_stop h hustop).symm

/-- The scans before the first one that runs out of events lead to one stage, whatever events
follow. The matches put down by then are the first ones with and without the events that follow. -/
theorem found_before_running_out (p : Pattern) (events more : List Event) :
    ∃ s, (first p).LeadsDecided events s ∧
      (s.next? events = none ∨ s.isDecided events = false) ∧
        (∀ t, (first p).LeadsDecided events t →
          (t.next? events = none ∨ t.isDecided events = false) → t = s) ∧
          s.found <+: p.findMatches events ∧
            (s.next? events = none → s.found = p.findMatches events) ∧
              (first p).Leads (events ++ more) s ∧ s.found <+: p.findMatches (events ++ more) := by
  obtain ⟨u, hu, hend, -⟩ := first_leads_last p events
  obtain ⟨s, hs, hstop⟩ := exists_leadsDecided hu hend
  have hmore := hs.leads_append more
  exact ⟨s, hs, hstop, fun t ht htstop => ht.stop_unique hs htstop hstop,
    hs.leads.found_prefix_findMatches, hs.leads.found_eq_findMatches, hmore,
    hmore.found_prefix_findMatches⟩

/-- The first A is settled by the other event behind it. The second one is found by running out, and
the event that follows takes it away. -/
theorem found_before_running_out_kept :
    ∃ (p : Pattern) (events more : List Event) (s : Stage),
      (Pattern.parse {} .empty "A => P").1 = .ok p ∧ (first p).LeadsDecided events s ∧
        s.isDecided events = false ∧ s.next? events ≠ none ∧ s.found = [[0]] ∧
          s.found <+: p.findMatches events ∧ s.found <+: p.findMatches (events ++ more) ∧
            p.findMatches events = [[0], [2]] ∧ p.findMatches (events ++ more) = [[0], [3]] := by
  obtain ⟨p, events, more, t, hp, ht, hdecided, hnext, hfound, hmatches, hmore⟩ :
      ∃ (p : Pattern) (events more : List Event) (t : Stage),
        (Pattern.parse {} .empty "A => P").1 = .ok p ∧ (first p).LeadsDecided events t ∧
          t.isDecided events = false ∧ t.next? events ≠ none ∧ t.found = [[0]] ∧
            p.findMatches events = [[0], [2]] ∧ p.findMatches (events ++ more) = [[0], [3]] := by
    refine ⟨_, [⟨⟨0⟩, 0⟩, ⟨⟨1⟩, 2⟩, ⟨⟨0⟩, 3⟩], [⟨⟨0⟩, 3.5⟩], _, rfl,
      .head ⟨by decide +kernel, rfl⟩ (.head ⟨by decide +kernel, rfl⟩ .refl), ?_⟩
    decide +kernel
  obtain ⟨s, hs, -, hunique, hprefix, -, -, hlater⟩ := found_before_running_out p events more
  obtain rfl := hunique t ht (.inr hdecided)
  exact ⟨p, events, more, t, hp, hs, hdecided, hnext, hfound, hprefix, hlater, hmatches, hmore⟩

end Stage

end TimedPattern
