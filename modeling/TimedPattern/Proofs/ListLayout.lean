import TimedPattern.Aggregate.ListVector
import TimedPattern.Proofs.GroupCalls

/-! # Lists end to end -/

namespace TimedPattern

/-! ## Lists that have been laid out -/

namespace ListColumn

/-- Entries one behind the other, without a gap, from one place to another. -/
def Adjoin (start stop : Nat) : List (Nat × Nat) → Prop
  | [] => start = stop
  | entry :: rest => entry.1 = start ∧ Adjoin (entry.1 + entry.2) stop rest

@[simp]
theorem length_entries_lay (offset : Nat) (lists : List (List Int)) :
    (lay offset lists).entries.length = lists.length := by
  induction lists generalizing offset with
  | nil => rfl
  | cons list rest ih => simp [lay, ih]

theorem adjoin_lay (offset : Nat) (lists : List (List Int)) :
    Adjoin offset (offset + (lay offset lists).items.length) (lay offset lists).entries := by
  induction lists generalizing offset with
  | nil => rfl
  | cons list rest ih =>
    refine ⟨rfl, ?_⟩
    have hrest := ih (offset + list.length)
    rw [Nat.add_assoc, ← List.length_append] at hrest
    exact hrest

end ListColumn

namespace ListVector

open ListColumn

/-! ## One list -/

@[simp]
theorem length_items (v : ListVector) : v.items.length = v.size := by
  rw [items, List.length_take, Nat.min_eq_left v.inUse]

theorem take_overwrite {buffer items : List Int} {place : Nat}
    (h : place + items.length ≤ buffer.length) :
    (overwrite buffer place items).take (place + items.length) = buffer.take place ++ items := by
  induction items generalizing buffer place with
  | nil => simp [overwrite]
  | cons item rest ih =>
    rw [List.length_cons] at h
    have hrest : place + 1 + rest.length ≤ (buffer.set place item).length := by
      rw [List.length_set]
      omega
    have hitem : (buffer.set place item).take (place + 1) = buffer.take place ++ [item] := by
      rw [List.take_add_one, List.take_set_of_le (Nat.le_refl place),
        List.getElem?_set_self (by omega)]
      rfl
    rw [overwrite, List.length_cons, ← Nat.add_assoc, Nat.add_right_comm, ih hrest, hitem,
      List.append_assoc]
    rfl

variable (reserve : Reserve) (v : ListVector)

@[simp]
theorem entries_put (row place : Nat) (list : List Int) :
    (v.put reserve row place list).entries = v.entries.set row (place, list.length) := by
  rw [put, reserve.entries_run]

theorem items_put (row : Nat) (list : List Int) :
    (v.put reserve row v.size list).items = v.items ++ list := by
  have hitems := reserve.items_run v (v.size + list.length)
  have hsize : (reserve.run v (v.size + list.length)).size = v.size := by
    rw [← length_items, hitems, length_items]
  rw [items, put, take_overwrite (reserve.room v _), ← hitems, items, hsize]

/-! ## All lists -/

/-- A vector with lists laid out behind its items, and their entries from a row on. -/
structure Laid (v w : ListVector) (first : Nat) (lists : List (List Int)) : Prop where
  items : w.items = v.items ++ (lay v.size lists).items
  entries : w.entries = v.entries.take first ++ (lay v.size lists).entries ++
    v.entries.drop (first + lists.length)

variable {reserve v}

theorem Laid.put {w : ListVector} {row : Nat} {list : List Int} {rest : List (List Int)}
    (hrow : row < v.entries.length)
    (h : Laid (v.put reserve row v.size list) w (row + 1) rest) : Laid v w row (list :: rest) := by
  have hsize : (v.put reserve row v.size list).size = v.size + list.length := rfl
  constructor
  · rw [h.items, items_put, hsize, List.append_assoc]
    rfl
  · rw [h.entries, hsize, entries_put, List.take_add_one, List.take_set_of_le (Nat.le_refl row),
      List.getElem?_set_self hrow, List.drop_set_of_lt (by omega), List.length_cons]
    simp [lay, Nat.add_right_comm, Nat.add_assoc]

variable {w : ListVector} {first : Nat} {lists : List (List Int)}

theorem Laid.size (h : Laid v w first lists) :
    w.size = v.size + (lay v.size lists).items.length := by
  rw [← length_items, h.items, List.length_append, length_items]

/-- The rows of the lists, in order. -/
def written (w : ListVector) (first count : Nat) : List (Nat × Nat) :=
  (w.entries.drop first).take count

theorem Laid.written (h : Laid v w first lists) (hfits : first + lists.length ≤ v.entries.length) :
    w.written first lists.length = (lay v.size lists).entries := by
  rw [ListVector.written, h.entries, List.append_assoc, List.drop_left' (by simp; omega),
    List.take_left' (by simp)]

theorem map_list_lay {before : List Int}
    (hitems : w.items = before ++ (lay before.length lists).items) :
    (lay before.length lists).entries.map w.list = lists := by
  induction lists generalizing before with
  | nil => rfl
  | cons list rest ih =>
    have hlist : w.list (before.length, list.length) = list := by
      rw [ListVector.list, hitems, List.drop_left, lay, List.take_left]
    rw [lay, List.map_cons, hlist, ← List.length_append, ih]
    rw [hitems, lay, List.length_append, List.append_assoc]

end ListVector

/-! ## A call -/

theorem Collector.firstMatch_of_unmatched (c : Collector) (h : c.hasMatch.1 = .ok false) :
    c.firstMatch.1 = .ok [] := by
  unfold hasMatch at h
  unfold firstMatch
  dsimp only at h ⊢
  cases hfound : c.findMatches.1 with
  | error e =>
    rw [hfound] at h
    cases h
  | ok found =>
    rw [hfound] at h
    have hempty : (! found.isEmpty) = false := Except.ok.inj h
    rw [Bool.not_eq_false', List.isEmpty_iff] at hempty
    rw [hempty]
    rfl

namespace Groups

open ListVector (Reserve)
open ListColumn (Adjoin)

variable {reserve : Reserve} {gs : Groups}

theorem finalize_cons (gs : Groups) (i : Nat) (rest : List Nat) :
    (finalize Collector.firstMatch gs (i :: rest)).1.map (·.getD []) =
        (gs.askList i).1 ::
          (finalize Collector.firstMatch (gs.askList i).2 rest).1.map (·.getD []) ∧
      (finalize Collector.firstMatch gs (i :: rest)).2 =
        (finalize Collector.firstMatch (gs.askList i).2 rest).2 := by
  unfold askList
  rw [finalize]
  cases gs.group? i with
  | none => exact ⟨rfl, rfl⟩
  | some c => exact ⟨rfl, rfl⟩

/-- The loop asks the same groups, and lays out what they answer. -/
theorem putLists_laid (gs : Groups) {v : ListVector} {row : Nat} {groups : List Nat}
    (hfits : row + groups.length ≤ v.entries.length) :
    (putLists reserve gs v row v.size groups).2 = (finalize Collector.firstMatch gs groups).2 ∧
      v.Laid (putLists reserve gs v row v.size groups).1 row
        ((finalize Collector.firstMatch gs groups).1.map (·.getD [])) := by
  induction groups generalizing gs v row with
  | nil =>
    refine ⟨rfl, ?_, ?_⟩
    · simp [putLists, finalize, ListColumn.lay]
    · simp [putLists, finalize, ListColumn.lay]
  | cons i rest ih =>
    rw [List.length_cons] at hfits
    obtain ⟨hlists, hleft⟩ := finalize_cons gs i rest
    rw [hlists, hleft]
    have hfits' : row + 1 + rest.length ≤
        (v.put reserve row v.size (gs.askList i).1).entries.length := by
      rw [ListVector.entries_put, List.length_set]
      omega
    obtain ⟨hgroups, hlaid⟩ := ih (gs.askList i).2 hfits'
    exact ⟨hgroups, hlaid.put (by omega)⟩

/-- What a group says to a question for its list: the times of its first match. There are none if
the group is gone, if its pattern cannot be read, and if there is no match. -/
structure Tells (gs : Groups) (group : Nat) (list : List Int) : Prop where
  gone : gs.group? group = none → list = []
  unreadable {c : Collector} : gs.group? group = some c →
    (∃ e, (Pattern.parse {} .empty (c.text.getD "")).1 = .error e) → list = []
  unmatched {c : Collector} : gs.group? group = some c → c.hasMatch.1 = .ok false → list = []
  times {c : Collector} {micros : List Int} : gs.group? group = some c →
    c.firstMatch.1 = .ok micros → list = micros

theorem tells_first {group : Nat} (hreached : ∀ c, gs.group? group = some c → c.Reached) :
    gs.Tells group (((gs.group? group).bind fun c => c.firstMatch.1.toOption).getD []) := by
  constructor
  · intro hgone
    rw [hgone]
    rfl
  · intro c hc hunreadable
    obtain ⟨offered, rows, hholds⟩ := (hreached c hc).holds
    have hnone : c.firstMatch.1.toOption = none :=
      c.toOption_answer_eq_none_iff.2 (hholds.unreadable_iff.2 hunreadable)
    rw [hc, Option.bind_some, hnone]
    rfl
  · intro c hc hunmatched
    rw [hc, Option.bind_some, c.firstMatch_of_unmatched hunmatched]
    rfl
  · intro c micros hc hmicros
    rw [hc, Option.bind_some, hmicros]
    rfl

/-- Whatever has happened to the groups of a query, and however many items a vector has in use: the
lists of a call stand behind these items, each where the one before ends, and they end where the
new items in use do. The row of each group, also if it is asked more than once, has its own list.
The other rows and the items before are left alone. -/
theorem lists_end_to_end (reserve : Reserve) (n : Nat) (batches : List Batch) (v : ListVector)
    (first : Nat) (groups : List Nat) (hfits : first + groups.length ≤ v.entries.length) :
    let gs := batches.foldl after (fresh n)
    let column := (finalizeLists gs v.size groups).1
    let w := (finalizeInto reserve gs v first groups).1
    let written := w.written first groups.length
    Adjoin v.size w.size written ∧
      List.Forall₂ (fun group entry => gs.Tells group (w.list entry)) groups written ∧
      w.items = v.items ++ column.items ∧
      w.entries = v.entries.take first ++ written ++ v.entries.drop (first + groups.length) ∧
      written = column.entries ∧
      (finalizeInto reserve gs v first groups).2 = (finalizeLists gs v.size groups).2 := by
  intro gs column w written
  let list (g : Nat) := ((gs.group? g).bind fun c => c.firstMatch.1.toOption).getD []
  have hgroup (g : Nat) : gs.group? g = alone n (log batches) g := group?_foldl_after n batches g
  have hreached (g : Nat) (c : Collector) (hc : gs.group? g = some c) : c.Reached :=
    alone_reached ((hgroup g).symm.trans hc)
  have hagree (g : Nat) : Agree (gs.group? g) (gs.group? g) := by
    rw [hgroup]
    exact alone_agree n (log batches) g
  -- A question leaves a group that holds the same, so one that is asked again answers alike.
  have hlists : (finalize Collector.firstMatch gs groups).1.map (·.getD []) = groups.map list := by
    rw [finalize_values .events (fun _ => rfl) (fun hc hd => hc.first_eq hd) hagree groups,
      List.map_map]
    rfl
  obtain ⟨hleft, hlaid⟩ := putLists_laid gs hfits
  have hcolumn : column = .lay v.size (groups.map list) := congrArg (ListColumn.lay v.size) hlists
  rw [hlists] at hlaid
  have hwritten : written = column.entries := by
    rw [hcolumn, ← hlaid.written (by rwa [List.length_map]), List.length_map]
    rfl
  have hitems : w.items = v.items ++ column.items := by
    rw [hcolumn]
    exact hlaid.items
  refine ⟨?_, ?_, hitems, ?_, hwritten, hleft⟩
  · rw [hwritten, hcolumn, show w.size = _ from hlaid.size]
    exact ListColumn.adjoin_lay v.size (groups.map list)
  · have hread : written.map w.list = groups.map list := by
      rw [hwritten, hcolumn, ← ListVector.length_items]
      apply ListVector.map_list_lay
      rw [hitems, hcolumn, ListVector.length_items]
    rw [← List.forall₂_map_right_iff (f := w.list), hread, List.forall₂_map_right_iff,
      List.forall₂_same]
    intro g hg
    exact tells_first (hreached g)
  · rw [hwritten, hcolumn, show w.entries = _ from hlaid.entries, List.length_map]

/-- One of three groups has a match, one has a pattern that is no pattern, and one is gone. The
first is asked twice. -/
theorem lists_end_to_end_asked_twice :
    let batches : List Batch := [
      .update [⟨0, some "A -> B => P".toUTF8, some 0, some "A".toUTF8⟩,
        ⟨0, none, some 500000, some "B".toUTF8⟩, ⟨1, some "A -> B".toUTF8, some 0, some "A".toUTF8⟩],
      .destroy [2]]
    let v : ListVector := ⟨List.replicate 6 (0, 0), [7, 8], 1, by decide⟩
    let w := (finalizeInto .padded (batches.foldl after (fresh 3)) v 1 [0, 1, 2, 0]).1
    1 + [0, 1, 2, 0].length ≤ v.entries.length ∧ Adjoin 1 w.size (w.written 1 4) ∧
      (w.written 1 4).map w.list = [[0, 500000], [], [], [0, 500000]] := by
  intro batches v w
  have hfits : 1 + [0, 1, 2, 0].length ≤ v.entries.length := by decide
  let matched := ((Collector.empty.offerPattern "A -> B => P").record 0 "A").record 500000 "B"
  let unread := (Collector.empty.offerPattern "A -> B").record 0 "A"
  have hsort : matched.sort = matched :=
    congrArg (fun rows => { matched with rows }) (List.mergeSort_of_pairwise (by decide))
  have htimes : matched.firstMatch.1.toOption = some [0, 500000] := by
    unfold Collector.firstMatch Collector.findMatches
    rw [hsort]
    decide +kernel
  have hmicros : matched.firstMatch.1 = .ok [0, 500000] := by
    generalize matched.firstMatch.1 = answer at htimes
    cases answer with
    | error e => cases htimes
    | ok micros => exact congrArg Except.ok (Option.some.inj htimes)
  have hunread : (Pattern.parse {} .empty "A -> B").1 = .error ⟨.missingResult, 6⟩ := by rfl
  obtain ⟨hadjoin, htells, -⟩ := lists_end_to_end .padded 3 batches v 1 [0, 1, 2, 0] hfits
  refine ⟨hfits, hadjoin, ?_⟩
  change List.Forall₂ _ _ (w.written 1 4) at htells
  generalize w.written 1 4 = written at htells ⊢
  rcases htells with _ | ⟨hfirst, _ | ⟨hsecond, _ | ⟨hthird, _ | ⟨hagain, _ | _⟩⟩⟩⟩
  rw [List.map_cons, List.map_cons, List.map_cons, List.map_singleton, hfirst.times rfl hmicros,
    hsecond.unreadable rfl ⟨_, hunread⟩, hthird.gone rfl, hagain.times rfl hmicros]

end Groups

end TimedPattern
