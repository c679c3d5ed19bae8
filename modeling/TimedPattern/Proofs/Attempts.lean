import TimedPattern.Proofs.Shift
import TimedPattern.Proofs.Stages

/-! # Attempts that know nothing of each other -/

namespace TimedPattern.Stage

/-- Where an attempt starts, the search goes on as a new search of the events from there on. The new
search counts them from its own start, so its matches are moved to their places among all events. -/
theorem attempt_searches_rest (p : Pattern) (events : List Event) {s : Stage}
    (hs : (first p).Leads events s) (hdone : s.done = []) :
    s = fresh p s.position s.found ∧
      ∃ u, s.Leads events u ∧ u.next? events = none ∧ u.found = p.findMatches events ∧
        u.found = s.found ++
          (p.reset.findMatches (events.drop s.position)).map (List.map (· + s.position)) := by
  have hfresh : s = fresh p s.position s.found := ((fresh_sound p 0 []).leads hs).fresh hdone
  obtain ⟨u, hu, hend, hfound, -⟩ :=
    fresh_leads_last p s.found s.position 0 (rfl : events.drop s.position = _)
  rw [Nat.add_zero, ← hfresh] at hu
  obtain ⟨v, hv, hvend, hvfound, -⟩ := first_leads_last p events
  obtain rfl : v = u := Leads.last_unique hv (hs.trans hu) hvend hend
  refine ⟨hfresh, v, hu, hend, hvfound, ?_⟩
  rw [hfound, p.matches_shift, p.findMatches_reset]

/-- The first attempt fails in its second step, when the first one has already handed its index
over. -/
theorem attempt_searches_rest_failed :
    ∃ (p : Pattern) (events : List Event) (s : Stage),
      (Pattern.parse {} .empty "A -> B => P").1 = .ok p ∧ (first p).Leads events s ∧
        s.done = [] ∧ s.position = 2 ∧ s = fresh p 2 [] ∧
          ∃ u, s.Leads events u ∧ u.next? events = none ∧
            u.found = (p.reset.findMatches (events.drop 2)).map (List.map (· + 2)) ∧
              u.found = [[2, 3]] := by
  obtain ⟨p, events, s, hp, hs, hdone, hposition, hfound, hmatches⟩ :
      ∃ (p : Pattern) (events : List Event) (s : Stage),
        (Pattern.parse {} .empty "A -> B => P").1 = .ok p ∧ (first p).Leads events s ∧
          s.done = [] ∧ s.position = 2 ∧ s.found = [] ∧ p.findMatches events = [[2, 3]] := by
    refine ⟨_, [⟨⟨0⟩, 0⟩, ⟨⟨2⟩, 5⟩, ⟨⟨0⟩, 6⟩, ⟨⟨1⟩, 6.5⟩], _, rfl, .head rfl (.head rfl .refl), ?_⟩
    decide +kernel
  obtain ⟨hfresh, u, hu, hend, hall, hrest⟩ := attempt_searches_rest p events hs hdone
  rw [hposition, hfound] at hfresh hrest
  exact ⟨p, events, s, hp, hs, hdone, hposition, hfresh, u, hu, hend, hrest, hall.trans hmatches⟩

end TimedPattern.Stage
