import TimedPattern.Aggregate.Collector
import TimedPattern.Proofs.Registries
import TimedPattern.Registry.Tables

/-!
# Names and their numbers

All that is ever done with a registry comes down to asking it for names.
-/

namespace TimedPattern

/-! ## Two tables -/

namespace Tables

/-- Asks for names, one after the other. -/
def internAll (t : Tables) (names : List String) : Tables :=
  names.foldl (fun t name => (t.intern name).2) t

/-- Both tables hold what a registry holds. -/
structure Holds (t : Tables) (r : Registry) : Prop where
  names : t.names.toList = r.names
  ids : ∀ name, t.get? name = r.get? name

variable {t : Tables} {r : Registry}

theorem Holds.name? (h : t.Holds r) (id : BehaviorId) : t.name? id = r.name? id := by
  unfold Tables.name? Registry.name?
  rw [← h.names, Array.getElem?_toList]

theorem Holds.size (h : t.Holds r) : t.size = r.size := by
  unfold Tables.size Registry.size
  rw [← h.names, Array.length_toList]

theorem holds_empty : empty.Holds .empty := by
  refine ⟨rfl, fun name => ?_⟩
  unfold get? empty
  rw [Std.HashMap.getElem?_empty]
  rfl

end Tables

namespace Registry

variable {r : Registry} {name : String}

theorem get?_of_mem (h : name ∈ r.names) : r.get? name = some ⟨r.names.idxOf name⟩ := if_pos h

theorem get?_of_not_mem (h : name ∉ r.names) : r.get? name = none := if_neg h

theorem intern_of_mem (h : name ∈ r.names) : r.intern name = (⟨r.names.idxOf name⟩, r) := dif_pos h

theorem intern_of_not_mem (h : name ∉ r.names) :
    (r.intern name).1 = ⟨r.size⟩ ∧ (r.intern name).2.names = r.names ++ [name] := by
  unfold intern
  rw [dif_neg h]
  exact ⟨rfl, rfl⟩

theorem get?_intern (r : Registry) (name other : String) :
    (r.intern name).2.get? other =
      if other = name then some (r.intern name).1 else r.get? other := by
  have hname : (r.intern name).2.get? name = some (r.intern name).1 :=
    get?_eq_some_iff.2 (r.name?_intern name)
  by_cases hother : other = name
  · rw [if_pos hother, hother, hname]
  · rw [if_neg hother]
    by_cases hmem : name ∈ r.names
    · rw [intern_of_mem hmem]
    · obtain ⟨-, hnames⟩ := intern_of_not_mem hmem
      unfold get?
      rw [hnames]
      by_cases hold : other ∈ r.names
      · rw [if_pos hold, if_pos (List.mem_append_left _ hold), List.idxOf_append_of_mem hold]
      · rw [if_neg hold, if_neg (by simp [hold, hother])]

end Registry

namespace Tables

variable {t : Tables} {r : Registry}

theorem Holds.intern (h : t.Holds r) (name : String) :
    (t.intern name).1 = (r.intern name).1 ∧ (t.intern name).2.Holds (r.intern name).2 := by
  have hids := h.ids name
  unfold get? at hids
  unfold Tables.intern
  rw [hids]
  by_cases hmem : name ∈ r.names
  · rw [Registry.get?_of_mem hmem, Registry.intern_of_mem hmem]
    exact ⟨rfl, h⟩
  · obtain ⟨hid, hnames⟩ := Registry.intern_of_not_mem hmem
    rw [Registry.get?_of_not_mem hmem]
    dsimp only
    rw [hid, h.size]
    refine ⟨rfl, ?_, fun other => ?_⟩
    · rw [hnames, Array.toList_push, h.names]
    · rw [Registry.get?_intern, hid, ← h.ids other]
      unfold get?
      rw [Std.HashMap.getElem?_insert]
      by_cases hother : other = name
      · rw [if_pos hother, if_pos (beq_iff_eq.2 hother.symm)]
      · rw [if_neg hother, if_neg (by simpa using Ne.symm hother)]

end Tables

namespace Registry

/-- Asks for names, one after the other. -/
def internAll (r : Registry) (names : List String) : Registry :=
  names.foldl (fun r name => (r.intern name).2) r

theorem internAll_append (r : Registry) (names others : List String) :
    r.internAll (names ++ others) = (r.internAll names).internAll others :=
  List.foldl_append

end Registry

theorem Tables.Holds.internAll {t : Tables} {r : Registry} (h : t.Holds r) (names : List String) :
    (t.internAll names).Holds (r.internAll names) := by
  induction names generalizing t r with
  | nil => exact h
  | cons name names ih => exact ih (h.intern name).2

/-! ## What is asked for -/

/-- The names that building asks for in front of the first fault, given how many operands there
are. -/
def Token.asks (operands : Nat) : List Token → List String
  | [] => []
  | t :: rest =>
    match t.kind with
    | .behavior name => name :: asks (operands + 1) rest
    | .operator _ => if 2 ≤ operands then asks (operands - 1) rest else []
    | .occurrences _ | .timing _ => if 1 ≤ operands then asks operands rest else []
    | .groupOpen | .groupClose => []

namespace Expression

theorem build_asks (r : Registry) (operands : List Operand) (tokens : List Token) :
    (build r operands tokens).2 = r.internAll (Token.asks operands.length tokens) := by
  fun_induction build r operands tokens with
  | case1 => rfl
  | case2 r operands t rest name hkind id grown hintern ih =>
    rw [ih, Token.asks, hkind]
    show grown.internAll _ = (r.intern name).2.internAll _
    rw [hintern]
    rfl
  | case4 r operands t rest op hkind hfew =>
    have hlength : ¬ 2 ≤ operands.length := by
      intro hle
      rcases operands with _ | ⟨right, _ | ⟨left, below⟩⟩
      · simp at hle
      · simp at hle
      · exact hfew right left below rfl
    rw [Token.asks, hkind]
    dsimp only
    rw [if_neg hlength]
    rfl
  | case3 r t rest op right left below hkind joined ih
  | case5 r t rest range top below hkind limited ih
  | case7 r t rest range top below hkind limited ih =>
    rw [ih, Token.asks, hkind]
    simp
  | case6 r t rest range hkind
  | case8 r t rest range hkind
  | case9 r operands t rest hkind
  | case10 r operands t rest hkind =>
    rw [Token.asks, hkind]
    rfl

/-- The names that compiling a step asks for. None if its tokens cannot be put in order. -/
def asks (lexemes : List Lexeme) : List String :=
  match Token.ofLexemes lexemes >>= Token.toPostfix with
  | .error _ => []
  | .ok tokens => Token.asks 0 tokens

theorem ofPostfix_asks (d : Defaults) (r : Registry) (tokens : List Token) :
    (ofPostfix d r tokens).2 = r.internAll (Token.asks 0 tokens) :=
  build_asks r [] tokens

theorem ofLexemes_asks (d : Defaults) (r : Registry) (lexemes : List Lexeme) :
    (ofLexemes d r lexemes).2 = r.internAll (asks lexemes) := by
  unfold ofLexemes asks
  cases Token.ofLexemes lexemes >>= Token.toPostfix with
  | error e => rfl
  | ok tokens =>
    cases tokens with
    | nil => rfl
    | cons t tokens => exact ofPostfix_asks d r (t :: tokens)

end Expression

namespace Pattern

/-- The names that compiling steps asks for, those of the first faulty step included. Whether a step
is faulty does not depend on the registry. -/
def stepAsks (d : Defaults) : List (List Lexeme × Nat) → List String
  | [] | ([], _) :: _ => []
  | (lexemes, _) :: rest =>
    Expression.asks lexemes ++
      match (Expression.ofLexemes d .empty lexemes).1 with
      | .error _ => []
      | .ok _ => stepAsks d rest

theorem compile_asks (d : Defaults) (r : Registry) (cuts : List (List Lexeme × Nat)) :
    (compile d r cuts).2 = r.internAll (stepAsks d cuts) := by
  fun_induction compile d r cuts with
  | case1 => rfl
  | case2 => rfl
  | case3 r lexemes stop rest hne e grown hstep =>
    have hsame := Expression.ofLexemes_alike d r .empty lexemes
    have hasks := Expression.ofLexemes_asks d r lexemes
    rw [hstep] at hsame hasks
    rw [stepAsks]
    · generalize (Expression.ofLexemes d .empty lexemes).1 = alone at hsame ⊢
      cases hsame
      rw [List.append_nil]
      exact hasks
    · exact hne
  | case4 r lexemes stop rest hne step grown hstep steps final hrest ih =>
    have hsame := Expression.ofLexemes_alike d r .empty lexemes
    have hasks := Expression.ofLexemes_asks d r lexemes
    rw [hstep] at hsame hasks
    rw [hrest] at ih
    rw [stepAsks]
    · generalize (Expression.ofLexemes d .empty lexemes).1 = alone at hsame ⊢
      cases hsame
      rw [Registry.internAll_append, ← hasks]
      exact ih
    · exact hne

/-- The names that reading a text asks for, whether it succeeds or not. -/
def asks (d : Defaults) (text : String) : List String :=
  let lexemes := Lexeme.ofText text
  match lexemes.filter (·.isSymbol .result) with
  | [result] => stepAsks d (cut result.position (lexemes.takeWhile (! ·.isSymbol .result)))
  | _ => []

theorem parse_asks (d : Defaults) (r : Registry) (text : String) :
    (parse d r text).2 = r.internAll (asks d text) := by
  unfold parse asks
  dsimp only
  generalize (Lexeme.ofText text).filter (·.isSymbol .result) = results
  rcases results with _ | ⟨result, _ | ⟨second, others⟩⟩
  · rfl
  · exact compile_asks d r _
  · rfl

end Pattern

theorem Event.ofNames_asks (r : Registry) (names : List String) (times : List Float) :
    (Event.ofNames r names times).2 = r.internAll (names.take times.length) := by
  induction names generalizing r times with
  | nil =>
    rw [List.take_nil]
    rfl
  | cons name names ih =>
    cases times with
    | nil => rfl
    | cons time times => exact ih _ times

/-- The names behind the rows of a collector. -/
def Collector.rowNames (c : Collector) : List String :=
  c.rows.filterMap fun row => c.registry.name? row.behavior

theorem Collector.recordRows_asks (c : Collector) (other : Registry) (rows : List Row) :
    (c.recordRows other rows).registry =
      c.registry.internAll (rows.filterMap fun row => other.name? row.behavior) := by
  fun_induction recordRows c other rows with
  | case1 c => rfl
  | case2 c row rest name hname ih =>
    rw [ih, List.filterMap_cons, hname]
    rfl
  | case3 c row rest hname ih => rw [ih, List.filterMap_cons, hname]

theorem Collector.merge_asks (c other : Collector) :
    (c.merge other).registry = c.registry.internAll other.rowNames := by
  have hrows := c.recordRows_asks other.registry other.rows
  unfold merge
  dsimp only
  split
  · exact hrows
  · exact hrows

/-! ## Operations -/

namespace Registry

/-- What is done with a registry. -/
inductive Operation where
  | intern (name : String)
  | build (d : Defaults) (tokens : List Token)
  | compile (d : Defaults) (lexemes : List Lexeme)
  | parse (d : Defaults) (text : String)
  | event (name : String) (time : Float)
  | events (names : List String) (times : List Float)
  /-- Merges a collector into the one that has the registry. -/
  | merge (into other : Collector)

def perform (r : Registry) : Operation → Registry
  | .intern name => (r.intern name).2
  | .build d tokens => (Expression.ofPostfix d r tokens).2
  | .compile d lexemes => (Expression.ofLexemes d r lexemes).2
  | .parse d text => (Pattern.parse d r text).2
  | .event name time => (Event.named r name time).2
  | .events names times => (Event.ofNames r names times).2
  | .merge into other => (({ into with registry := r } : Collector).merge other).registry

def after (r : Registry) (done : List Operation) : Registry := done.foldl perform r

/-- The names that an operation asks for. -/
def Operation.asks : Operation → List String
  | .intern name | .event name _ => [name]
  | .build _ tokens => Token.asks 0 tokens
  | .compile _ lexemes => Expression.asks lexemes
  | .parse d text => Pattern.asks d text
  | .events names times => names.take times.length
  | .merge _ other => other.rowNames

/-- An operation does nothing with a registry but ask it for names. -/
theorem perform_eq (r : Registry) (op : Operation) : r.perform op = r.internAll op.asks := by
  cases op with
  | intern name => rfl
  | build d tokens => exact Expression.ofPostfix_asks d r tokens
  | compile d lexemes => exact Expression.ofLexemes_asks d r lexemes
  | parse d text => exact Pattern.parse_asks d r text
  | event name time => rfl
  | events names times => exact Event.ofNames_asks r names times
  | merge into other => exact Collector.merge_asks _ other

theorem after_eq (r : Registry) (done : List Operation) :
    r.after done = r.internAll (done.flatMap Operation.asks) := by
  induction done generalizing r with
  | nil => rfl
  | cons op done ih =>
    rw [List.flatMap_cons, internAll_append, ← perform_eq, ← ih]
    rfl

/-! ## Order -/

theorem eraseDups_of_nodup {names : List String} (h : names.Nodup) : names.eraseDups = names := by
  induction names with
  | nil => rfl
  | cons name names ih =>
    obtain ⟨hnew, hnodup⟩ := List.nodup_cons.1 h
    have hfilter : names.filter (fun other => ! other == name) = names := by
      apply List.filter_eq_self.2
      intro other hother
      have hne : other ≠ name := fun heq => hnew (heq ▸ hother)
      simpa using hne
    rw [List.eraseDups_cons, hfilter, ih hnodup]

theorem eraseDups_append_cons {names : List String} {name : String} (h : name ∈ names)
    (rest : List String) : (names ++ name :: rest).eraseDups = (names ++ rest).eraseDups := by
  rw [List.eraseDups_append, List.eraseDups_append]
  simp [List.removeAll, h]

theorem names_internAll (r : Registry) (names : List String) :
    (r.internAll names).names = (r.names ++ names).eraseDups := by
  induction names generalizing r with
  | nil =>
    rw [List.append_nil, eraseDups_of_nodup r.nodup]
    rfl
  | cons name names ih =>
    show ((r.intern name).2.internAll names).names = _
    rw [ih]
    by_cases hmem : name ∈ r.names
    · rw [intern_of_mem hmem, eraseDups_append_cons hmem]
    · rw [(intern_of_not_mem hmem).2, List.append_assoc, List.singleton_append]

theorem names_prefix_internAll (r : Registry) (names : List String) :
    r.names <+: (r.internAll names).names := by
  induction names generalizing r with
  | nil => exact List.prefix_refl _
  | cons name names ih => exact (r.names_prefix_intern name).trans (ih _)

end Registry

/-! ## Numbers of names -/

/-- Names and numbers belong together one to one. The numbers are given out from zero on, in the
order in which the names were first asked for. -/
structure Numbering (get? : String → Option BehaviorId) (name? : BehaviorId → Option String)
    (size : Nat) (asked : List String) : Prop where
  inverse : ∀ name id, get? name = some id ↔ name? id = some name
  issued : ∀ id, (∃ name, get? name = some id) ↔ id.index < size
  inOrder : ∀ id, name? id = asked.eraseDups[id.index]?
  unique : ∀ name other id otherId, get? name = some id → get? other = some otherId →
    (id = otherId ↔ name = other)

theorem Registry.numbering {r : Registry} {asked : List String}
    (h : r.names = asked.eraseDups) : Numbering r.get? r.name? r.size asked := by
  refine ⟨fun name id => get?_eq_some_iff, fun id => ?_, fun id => ?_, ?_⟩
  · unfold size
    constructor
    · rintro ⟨name, hid⟩
      exact (List.getElem?_eq_some_iff.1 (get?_eq_some_iff.1 hid)).1
    · intro hlt
      exact ⟨r.names[id.index], get?_eq_some_iff.2 (List.getElem?_eq_getElem hlt)⟩
  · unfold name?
    rw [h]
  · intro name other id otherId hid hother
    rw [get?_eq_some_iff] at hid hother
    constructor
    · rintro rfl
      exact Option.some.inj (hid.symm.trans hother)
    · rintro rfl
      exact eq_of_name? hid hother

theorem Tables.Holds.numbering {t : Tables} {r : Registry} (h : t.Holds r) {asked : List String}
    (hr : Numbering r.get? r.name? r.size asked) : Numbering t.get? t.name? t.size asked := by
  rwa [funext h.ids, funext h.name?, h.size]

/-- Operations ask both tables for the same names as a registry. -/
def Tables.after (t : Tables) (done : List Registry.Operation) : Tables :=
  t.internAll (done.flatMap Registry.Operation.asks)

namespace Registry

/-- Whatever is done with a registry, its names and numbers belong together one to one, as they do
if it is kept in two tables that are changed apart. No number is ever given to another name. -/
theorem numbers_stay (done more : List Operation) :
    let r := Registry.empty.after done
    let t := Tables.empty.after done
    let asked := done.flatMap Operation.asks
    Numbering r.get? r.name? r.size asked ∧ Numbering t.get? t.name? t.size asked ∧
      t.Holds r ∧ (∀ name, (t.intern name).1 = (r.intern name).1) ∧
      (∀ op, r.perform op = r.internAll op.asks) ∧
      (∀ id name, r.name? id = some name → (r.after more).name? id = some name) ∧
      ∀ id name, t.name? id = some name → (t.after more).name? id = some name := by
  intro r t asked
  have hr : r = Registry.empty.internAll asked := after_eq .empty done
  have hholds : t.Holds r := by
    rw [hr]
    exact Tables.holds_empty.internAll asked
  have hnumbering : Numbering r.get? r.name? r.size asked := by
    apply numbering
    rw [hr, names_internAll]
    rfl
  have hstay (id : BehaviorId) (name : String) (hname : r.name? id = some name) :
      (r.after more).name? id = some name := by
    rw [after_eq]
    exact name?_of_prefix (names_prefix_internAll r _) hname
  refine ⟨hnumbering, hholds.numbering hnumbering, hholds, fun name => (hholds.intern name).1,
    r.perform_eq, hstay, fun id name hname => ?_⟩
  have hmore : (t.after more).Holds (r.after more) := by
    rw [after_eq]
    exact hholds.internAll _
  rw [hmore.name?]
  rw [hholds.name?] at hname
  exact hstay id name hname

/-- A faulty text leaves the names in front of its fault behind, and they keep their numbers. -/
example : (Registry.empty.after [.parse {} "B -> C & | D => F", .intern "A",
    .events ["D", "C"] [0, 1]]).names = ["B", "C", "A", "D"] := rfl

end Registry

end TimedPattern
