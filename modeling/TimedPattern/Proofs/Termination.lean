import Mathlib.Data.List.Chain
import TimedPattern.Proofs.Stages

/-!
# Every search ends

Only an attempt that ends with its last step complete at the first event it looks at leaves the
position of a search where it is, and then the next scan moves it on.
-/

namespace TimedPattern

/-! ## Where the next scan may start -/

namespace Expression

theorem le_ending_scanFrom {start index i : Nat} {progress : Option Progress} {last : Outcome}
    {e : Expression} {a : Attempt} {events : List Event}
    (h : (e.scanFrom start progress last index a events).ending = .completed i ∨
      ∃ o, (e.scanFrom start progress last index a events).ending = .ranOut i o) : index ≤ i := by
  induction events generalizing progress last index e a with
  | nil =>
    obtain h | ⟨o, h⟩ := h
    · simp [scanFrom] at h
    · exact Nat.le_of_eq (Ending.ranOut.inj h).1
  | cons event rest ih =>
    unfold scanFrom at h
    dsimp only at h
    split at h
    · simp at h
    · split at h
      · obtain h | ⟨o, h⟩ := h
        · exact Nat.le_of_eq (Ending.completed.inj h)
        · simp at h
      · exact Nat.le_of_succ_le (ih h)

theorem start_le_resume (e : Expression) (start : Nat) (a : Attempt) (events : List Event)
    (isLast : Bool) : start ≤ (e.scan start a events).resume isLast := by
  have hanchor := e.start_le_anchor start a events
  unfold Scan.resume
  split
  · split
    · rename_i i h
      exact le_ending_scanFrom (.inl h)
    · rename_i i o h
      exact le_ending_scanFrom (.inr ⟨o, h⟩)
    · omega
  · omega

theorem start_lt_resume (e : Expression) (start : Nat) (a : Attempt) (events : List Event) :
    start < (e.scan start a events).resume false := by
  have hanchor := e.start_le_anchor start a events
  simp only [Scan.resume, Bool.and_false, Bool.false_eq_true, if_false]
  omega

end Expression

namespace Stage

variable {p : Pattern} {events : List Event} {s t u : Stage} {stages : List Stage}

/-! ## One scan -/

/-- An attempt starts after the start of the last one, and no earlier than where to resume. -/
structure Restarts (start resume : Nat) (t : Stage) : Prop where
  done : t.done = []
  start_eq : t.start = t.position
  start_lt : start < t.position
  resume_le : resume ≤ t.position

theorem Restarts.mono {start n m : Nat} (h : Restarts start m t) (hle : n ≤ m) :
    Restarts start n t :=
  ⟨h.done, h.start_eq, h.start_lt, Nat.le_trans hle h.resume_le⟩

theorem restart_restarts (s : Stage) (resume : Nat) : Restarts s.start resume (s.restart resume) :=
  ⟨rfl, rfl, Nat.le_max_right .., Nat.le_max_left ..⟩

theorem complete_restarts (s : Stage) (indices : IndexSet) (resume : Nat) :
    Restarts s.start resume (s.complete indices resume) := by
  unfold complete
  generalize (if indices.isEmpty then s.found else s.found ++ [indices.toList]) = found
  cases indices.last? with
  | none => exact restart_restarts { s with found } resume
  | some last =>
    exact (restart_restarts { s with found } (max resume (last + 1))).mono (Nat.le_max_left ..)

theorem next?_cases (h : s.next? events = some t) :
    s.position < events.length ∧
      (t.done ≠ [] ∧ s.position < t.position ∨ Restarts s.start s.position t) := by
  unfold next? at h
  split at h
  · simp at h
  · rename_i step rest _
    split at h
    · rename_i hlt
      refine ⟨hlt, ?_⟩
      have hresume (isLast : Bool) : s.position ≤ (s.scan events step).resume isLast :=
        step.start_le_resume ..
      let scanned := { s with todo := (s.scan events step).expression :: rest }
      dsimp only at h
      split at h
      · split at h
        · obtain rfl := Option.some.inj h
          exact .inr ((complete_restarts scanned _ _).mono (hresume true))
        · obtain rfl := Option.some.inj h
          exact .inl ⟨List.cons_ne_nil _ _, step.start_lt_resume ..⟩
      · obtain rfl := Option.some.inj h
        exact .inr ((restart_restarts scanned _).mono (hresume false))
    · simp at h

/-- What a scan may do to the position and the step that comes next. -/
structure Advances (events : List Event) (s t : Stage) : Prop where
  position_le : s.position ≤ t.position
  /-- Only the end of an attempt leaves the position where it is, and only for one scan. -/
  stays : t.position = s.position →
    s.done ≠ [] ∧ t.done = [] ∧ ∀ u, t.next? events = some u → t.position < u.position
  start_lt : t.done = [] → s.start < t.start

theorem lt_position (hstart : s.start = s.position) (h : s.next? events = some t) :
    s.position < t.position := by
  rcases (next?_cases h).2 with ⟨-, hlt⟩ | hrestarts
  · exact hlt
  · rw [← hstart]
    exact hrestarts.start_lt

theorem Sound.start_eq (hs : s.Sound p) (hdone : s.done = []) : s.start = s.position := by
  rw [hs.fresh hdone]
  rfl

theorem Sound.advances (hs : s.Sound p) (h : s.next? events = some t) : Advances events s t := by
  rcases (next?_cases h).2 with ⟨hdone, hlt⟩ | hrestarts
  · exact ⟨Nat.le_of_lt hlt, fun heq => absurd heq (Nat.ne_of_gt hlt), fun ht => absurd ht hdone⟩
  · refine ⟨hrestarts.resume_le, fun heq => ⟨fun hdone => ?_, hrestarts.done, fun u hu => ?_⟩, ?_⟩
    · exact absurd heq (Nat.ne_of_gt (lt_position (hs.start_eq hdone) h))
    · exact lt_position hrestarts.start_eq hu
    · intro _
      rw [hrestarts.start_eq]
      exact hrestarts.start_lt

/-! ## Whole runs -/

/-- The stages of a search from the first one on, each after the one before. -/
structure IsRun (p : Pattern) (events : List Event) (stages : List Stage) : Prop where
  head : stages.head? = some (first p)
  chain : stages.IsChain fun s t => s.next? events = some t

/-- Where a stage is: the position, and how many steps of the attempt are done. -/
def place (s : Stage) : Nat × Nat := (s.position, s.done.length)

/-- Grows with every scan: twice the position, and one more where an attempt starts. -/
def key (s : Stage) : Nat := 2 * s.position + if s.done = [] then 1 else 0

theorem key_eq_of_place (h : s.place = t.place) : s.key = t.key := by
  obtain ⟨hposition, hlength⟩ := Prod.mk.inj h
  have hdone : s.done = [] ↔ t.done = [] := by
    rw [← List.length_eq_zero_iff, ← List.length_eq_zero_iff, hlength]
  simp only [key, hposition, hdone]

theorem Advances.key_lt (h : Advances events s t) : s.key < t.key := by
  have hle := h.position_le
  unfold key
  by_cases hstays : t.position = s.position
  · obtain ⟨hs, ht, -⟩ := h.stays hstays
    rw [if_neg hs, if_pos ht]
    omega
  · split <;> split <;> omega

theorem IsRun.sound (h : IsRun p events stages) : ∀ s ∈ stages, s.Sound p := by
  refine h.chain.induction _ _ (fun _ _ hnext hs => hs.next hnext) fun hne => ?_
  have hhead := h.head
  rw [List.head?_eq_some_head hne] at hhead
  rw [Option.some.inj hhead]
  exact fresh_sound p 0 []

theorem IsRun.advances (h : IsRun p events stages) : stages.IsChain (Advances events) :=
  h.chain.imp_of_mem_imp fun s _ hs _ hnext => (h.sound s hs).advances hnext

theorem IsRun.pairwise_key (h : IsRun p events stages) :
    stages.Pairwise fun s t => s.key < t.key := by
  have hkeys : (stages.map key).Pairwise (· < ·) :=
    List.isChain_iff_pairwise.1 (List.isChain_map_of_isChain key (fun _ _ => Advances.key_lt)
      h.advances)
  exact List.pairwise_map.1 hkeys

theorem lt_key (h : s.next? events = some t) : s.key < 2 * events.length := by
  have hlt := (next?_cases h).1
  unfold key
  split <;> omega

theorem length_le_of_chain (hchain : (s :: stages).IsChain fun s t => s.next? events = some t)
    (hkeys : (s :: stages).IsChain fun s t => s.key < t.key) :
    stages.length ≤ 2 * events.length - s.key := by
  induction stages generalizing s with
  | nil => exact Nat.zero_le _
  | cons t stages ih =>
    obtain ⟨hnext, hchain⟩ := List.isChain_cons_cons.1 hchain
    obtain ⟨hkey, hkeys⟩ := List.isChain_cons_cons.1 hkeys
    have hrest := ih hchain hkeys
    have hlt := lt_key hnext
    rw [List.length_cons]
    omega

theorem exists_complete_run (p : Pattern) (events : List Event) :
    ∃ stages last, IsRun p events stages ∧ stages.getLast? = some last ∧
      last.next? events = none ∧ last.found = p.findMatches events := by
  obtain ⟨u, hu, hend, hfound, -⟩ := first_leads_last p events
  obtain ⟨stages, hchain, hlast⟩ := List.exists_isChain_cons_of_relationReflTransGen hu
  refine ⟨first p :: stages, u, ⟨rfl, hchain⟩, ?_, hend, hfound⟩
  rw [List.getLast?_eq_some_getLast (List.cons_ne_nil _ _), hlast]

/-- Every search ends, after two scans for each event at the most. From one scan to the next the
position never goes back. It stays where it is only when an attempt is over, and the next scan moves
it on. No step starts twice at one position, and every attempt starts after the one before. -/
theorem runs_end (p : Pattern) (events : List Event) :
    (∃ stages last, IsRun p events stages ∧ stages.getLast? = some last ∧
        last.next? events = none ∧ last.found = p.findMatches events) ∧
      ∀ stages, IsRun p events stages →
        stages.length ≤ 2 * events.length + 1 ∧ stages.IsChain (Advances events) ∧
          (stages.map place).Nodup ∧
            ((stages.filter fun s => s.done.isEmpty).map start).Pairwise (· < ·) := by
  refine ⟨exists_complete_run p events, fun stages hrun => ⟨?_, hrun.advances, ?_, ?_⟩⟩
  · obtain ⟨rest, rfl⟩ := List.head?_eq_some_iff.1 hrun.head
    have hlength := length_le_of_chain hrun.chain (hrun.pairwise_key.isChain)
    rw [List.length_cons]
    omega
  · refine List.pairwise_map.2 (hrun.pairwise_key.imp fun hkey hplace => ?_)
    exact absurd (key_eq_of_place hplace) (Nat.ne_of_lt hkey)
  · refine List.pairwise_map.2 (List.pairwise_filter.2 ?_)
    refine hrun.pairwise_key.imp_of_mem fun hs ht hkey hsdone htdone => ?_
    rw [List.isEmpty_iff] at hsdone htdone
    rw [(hrun.sound _ hs).start_eq hsdone, (hrun.sound _ ht).start_eq htdone]
    unfold key at hkey
    rw [if_pos hsdone, if_pos htdone] at hkey
    omega

/-- The second step is complete at the first event that it looks at, with nothing matched. The
attempt is over, and the next one starts at the same event. -/
theorem runs_end_in_place :
    ∃ (p : Pattern) (events : List Event) (stages : List Stage),
      (Pattern.parse {} .empty "A -> B[?] => P").1 = .ok p ∧ IsRun p events stages ∧
        stages.map place = [(0, 0), (1, 1), (1, 0), (2, 0)] ∧
          stages.length ≤ 2 * events.length + 1 ∧ stages.IsChain (Advances events) := by
  obtain ⟨p, events, stages, hp, hrun, hplaces⟩ :
      ∃ (p : Pattern) (events : List Event) (stages : List Stage),
        (Pattern.parse {} .empty "A -> B[?] => P").1 = .ok p ∧ IsRun p events stages ∧
          stages.map place = [(0, 0), (1, 1), (1, 0), (2, 0)] :=
    ⟨_, [⟨⟨0⟩, 0⟩, ⟨⟨2⟩, 5⟩], _, rfl,
      ⟨rfl, .cons_cons rfl (.cons_cons rfl (.cons_cons rfl (.singleton _)))⟩, rfl⟩
  obtain ⟨hlength, hadvances, -⟩ := (runs_end p events).2 stages hrun
  exact ⟨p, events, stages, hp, hrun, hplaces, hlength, hadvances⟩

end Stage

end TimedPattern
