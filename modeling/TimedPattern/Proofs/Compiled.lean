import Mathlib.Data.List.TakeDrop
import TimedPattern.Pattern
import TimedPattern.Proofs.Trim

/-! # What compiled steps have in common -/

namespace TimedPattern

theorem exists_of_map_eq_ok {ε α β : Type} {x : Except ε α} {f : α → β} {b : β}
    (h : x.map f = .ok b) : ∃ a, x = .ok a ∧ f a = b := by
  cases x with
  | error e => cases h
  | ok a => exact ⟨a, rfl, Except.ok.inj h⟩

/-! ## Lexemes -/

def Lexeme.Proper (l : Lexeme) : Prop := ∀ t, l.kind = .text t → Text.Trimmed t.toList

theorem Lexeme.ofText_proper (text : String) : ∀ l ∈ Lexeme.ofText text, l.Proper := by
  intro l hl t ht
  unfold Lexeme.ofText Lexeme.ofChars at hl
  obtain ⟨piece, -, hpiece⟩ := List.mem_filterMap.1 hl
  unfold Piece.lexeme? at hpiece
  split at hpiece
  · obtain rfl := Option.some.inj hpiece
    simp at ht
  · dsimp only at hpiece
    split at hpiece
    · simp at hpiece
    · rename_i hne
      obtain rfl := Option.some.inj hpiece
      obtain rfl := LexemeKind.text.inj ht
      rw [String.toList_ofList]
      exact Text.trimmed_trim hne

/-! ## Tokens -/

def TokenKind.Proper : TokenKind → Prop
  | behavior name => Text.Trimmed name.toList
  | timing range => range.asWindow = range
  | _ => True

namespace Token

theorem ofLexeme_proper {l : Lexeme} (hl : l.Proper) {kind : TokenKind}
    (h : Reading.ofLexeme l.kind = .token kind) : kind.Proper := by
  unfold Reading.ofLexeme at h
  split at h <;> cases h
  · rename_i t ht
    exact hl t ht
  all_goals trivial

theorem region_proper {r : Region} {t : Token} (h : r.token = .ok t) : t.kind.Proper := by
  unfold Region.token at h
  split at h
  · obtain ⟨range, -, rfl⟩ := exists_of_map_eq_ok h
    trivial
  · obtain ⟨window, hwindow, rfl⟩ := exists_of_map_eq_ok h
    unfold Region.readTiming at hwindow
    split at hwindow
    · split at hwindow
      · obtain ⟨range, -, rfl⟩ := exists_of_map_eq_ok hwindow
        exact range.asWindow_asWindow
      · simp at hwindow
    · simp at hwindow

theorem read_proper {region : Option Region} {lexemes : List Lexeme} {tokens : List Token}
    (hl : ∀ l ∈ lexemes, l.Proper) (h : read region lexemes = .ok tokens) :
    ∀ t ∈ tokens, t.kind.Proper := by
  fun_induction read region lexemes generalizing tokens with
  | case1 => cases h; simp
  | case2 r => cases h
  | case3 l rest kind hkind ih =>
    obtain ⟨others, hrest, rfl⟩ := exists_of_map_eq_ok h
    intro t ht
    rcases List.mem_cons.1 ht with rfl | ht
    · exact ofLexeme_proper (hl l (by simp)) hkind
    · exact ih (fun l hl' => hl l (by simp [hl'])) hrest t ht
  | case4 l rest kind hkind ih => exact ih (fun l hl' => hl l (by simp [hl'])) h
  | case5 l rest fault hfault => cases h
  | case6 r l rest hclose token htoken ih =>
    obtain ⟨others, hrest, rfl⟩ := exists_of_map_eq_ok h
    intro t ht
    rcases List.mem_cons.1 ht with rfl | ht
    · exact region_proper htoken
    · exact ih (fun l hl' => hl l (by simp [hl'])) hrest t ht
  | case7 r l rest hclose e he => cases h
  | case8 r l rest hopen item hitem ih => exact ih (fun l hl' => hl l (by simp [hl'])) h
  | case9 r l rest hopen e he => cases h

theorem mem_of_drain {waiting tokens : List Token} (h : drain waiting = .ok tokens) :
    ∀ t ∈ tokens, t ∈ waiting := by
  fun_induction drain waiting generalizing tokens with
  | case1 => cases h; simp
  | case2 top rest hopen => cases h
  | case3 top rest hopen ih =>
    obtain ⟨others, hrest, rfl⟩ := exists_of_map_eq_ok h
    intro t ht
    rcases List.mem_cons.1 ht with rfl | ht
    · simp
    · exact List.mem_cons_of_mem _ (ih hrest t ht)

theorem mem_of_release {precedence : Nat} {waiting before staying : List Token}
    (h : release precedence waiting = (before, staying)) :
    ∀ t, t ∈ before ∨ t ∈ staying → t ∈ waiting := by
  unfold release at h
  rw [List.span_eq_takeWhile_dropWhile, Prod.mk.injEq] at h
  obtain ⟨rfl, rfl⟩ := h
  rintro t (ht | ht)
  · exact (List.takeWhile_sublist _).mem ht
  · exact (List.dropWhile_sublist _).mem ht

theorem mem_of_endGroup? {waiting group below : List Token}
    (h : endGroup? waiting = some (group, below)) :
    ∀ t, t ∈ group ∨ t ∈ below → t ∈ waiting := by
  unfold endGroup? at h
  rw [List.span_eq_takeWhile_dropWhile] at h
  split at h
  · rename_i hspan
    simp only [Prod.mk.injEq, Option.some.injEq] at h hspan
    obtain ⟨rfl, rfl⟩ := h
    rintro t (ht | ht)
    · rw [← hspan.1] at ht
      exact (List.takeWhile_sublist _).mem ht
    · apply (List.dropWhile_sublist (! ·.isGroupOpen)).mem
      rw [hspan.2]
      exact List.mem_cons_of_mem _ ht
  · simp at h

theorem mem_of_order {waiting tokens ordered : List Token} {afterOperand : Bool}
    (h : order waiting afterOperand tokens = .ok ordered) :
    ∀ t ∈ ordered, t ∈ waiting ∨ t ∈ tokens := by
  fun_induction order waiting afterOperand tokens generalizing ordered with
  | case1 waiting afterOperand =>
    intro t ht
    exact .inl (mem_of_drain h t ht)
  | case2 waiting afterOperand u rest name hkind ih =>
    obtain ⟨others, hrest, rfl⟩ := exists_of_map_eq_ok h
    grind
  | case3 waiting afterOperand u rest hkind ih => grind
  | case4 waiting afterOperand u rest hkind group below hend ih =>
    obtain ⟨others, hrest, rfl⟩ := exists_of_map_eq_ok h
    have := mem_of_endGroup? hend
    grind
  | case5 => cases h
  | case6 waiting afterOperand u rest op hkind before staying hrelease ih =>
    obtain ⟨others, hrest, rfl⟩ := exists_of_map_eq_ok h
    have := mem_of_release hrelease
    grind
  | case7 waiting u rest range hkind before staying hrelease ih =>
    obtain ⟨others, hrest, rfl⟩ := exists_of_map_eq_ok h
    have := mem_of_release hrelease
    grind
  | case8 => cases h
  | case9 waiting u rest range hkind before staying hrelease ih =>
    obtain ⟨others, hrest, rfl⟩ := exists_of_map_eq_ok h
    have := mem_of_release hrelease
    grind
  | case10 => cases h

end Token

/-! ## Trees -/

/-- Nothing has matched yet, and the time limit is a window. -/
structure Tally.Compiled (t : Tally) : Prop where
  fresh : t.matched = ∅
  window : ∀ range, t.timing = some range → range.asWindow = range

namespace Tally.Compiled

theorem empty : Tally.Compiled {} := ⟨rfl, by simp⟩

theorem limitOccurrences {t : Tally} (h : t.Compiled) (range : Range) :
    (t.limitOccurrences range).Compiled := ⟨h.fresh, h.window⟩

theorem limitTiming {t : Tally} (h : t.Compiled) {range : Range} (hrange : range.asWindow = range) :
    (t.limitTiming range).Compiled := by
  refine ⟨h.fresh, fun window hwindow => ?_⟩
  unfold Tally.limitTiming at hwindow
  cases htiming : t.timing with
  | none =>
    rw [htiming] at hwindow
    obtain rfl := Option.some.inj hwindow
    exact hrange
  | some own =>
    rw [htiming] at hwindow
    obtain rfl := Option.some.inj hwindow
    exact h.window _ htiming

end Tally.Compiled

namespace Expression

/-- What holds of every node of a step that was read. -/
def Compiled (r : Registry) : Expression → Prop
  | leaf behavior name t => r.name? behavior = some name ∧ Text.Trimmed name.toList ∧ t.Compiled
  | conditional _ left right t => left.Compiled r ∧ right.Compiled r ∧ t.Compiled

theorem Compiled.mono {r s : Registry} {e : Expression} (h : e.Compiled r)
    (hnames : r.names <+: s.names) : e.Compiled s := by
  induction e with
  | leaf behavior name t => exact ⟨Registry.name?_of_prefix hnames h.1, h.2⟩
  | conditional op left right t ihl ihr => exact ⟨ihl h.1, ihr h.2.1, h.2.2⟩

theorem Compiled.mapTally {r : Registry} {e : Expression} {f : Tally → Tally} (h : e.Compiled r)
    (hf : ∀ t : Tally, t.Compiled → (f t).Compiled) : (e.mapTally f).Compiled r := by
  cases e with
  | leaf behavior name t => exact ⟨h.1, h.2.1, hf t h.2.2⟩
  | conditional op left right t => exact ⟨h.1, h.2.1, hf t h.2.2⟩

theorem Compiled.fill {r : Registry} {e : Expression} {d : Defaults} (h : e.Compiled r)
    (hd : d.timing.asWindow = d.timing) (countOpen timeOpen : Bool) :
    (e.fill d countOpen timeOpen).Compiled r := by
  induction e generalizing countOpen timeOpen with
  | leaf behavior name t =>
    refine ⟨h.1, h.2.1, ?_⟩
    cases countOpen <;> cases timeOpen
    · exact h.2.2
    · exact h.2.2.limitTiming hd
    · exact h.2.2.limitOccurrences _
    · exact (h.2.2.limitOccurrences _).limitTiming hd
  | conditional op left right t ihl ihr => exact ⟨ihl h.1 _ _, ihr h.2.1 _ _, h.2.2⟩

theorem Compiled.withDefaults {r : Registry} {e : Expression} (h : e.Compiled r) (d : Defaults) :
    (e.withDefaults d).Compiled r := by
  apply h.fill
  exact Range.asWindow_asWindow d.timing

/-- No default is missing. -/
def Filled (e : Expression) : Prop := ∀ d, e.fill d true true = e

theorem fill_fill (e : Expression) (d other : Defaults) (countOpen timeOpen : Bool) :
    (e.fill d countOpen timeOpen).fill other countOpen timeOpen = e.fill d countOpen timeOpen := by
  induction e generalizing countOpen timeOpen with
  | leaf behavior name t =>
    obtain ⟨occurrences, timing, matched⟩ := t
    cases countOpen <;> cases timeOpen <;> cases occurrences <;> cases timing <;> rfl
  | conditional op left right t ihl ihr =>
    simp only [fill, ihl, ihr]

theorem withDefaults_filled (e : Expression) (d : Defaults) : (e.withDefaults d).Filled :=
  fun other => e.fill_fill _ other true true

theorem Filled.leaf_limits {behavior : BehaviorId} {name : String} {t : Tally}
    (h : (leaf behavior name t).Filled) :
    ∃ occurrences timing, t.occurrences = some occurrences ∧ t.timing = some timing := by
  have hfill : (t.limitOccurrences Range.one).limitTiming Range.unit = t :=
    (leaf.inj (h {})).2.2
  obtain ⟨occurrences, timing, matched⟩ := t
  cases occurrences with
  | none => cases hfill
  | some occurrences => cases timing with
    | none => cases hfill
    | some timing => exact ⟨occurrences, timing, rfl, rfl⟩

/-! ## Steps -/

theorem only_eq_ok {operands : List Operand} {e : Expression} (h : only operands = .ok e) :
    ∃ operand, operands = [operand] ∧ operand.expression = e := by
  unfold only at h
  split at h
  · simp at h
  · rename_i operand hreverse
    cases h
    refine ⟨operand, ?_, rfl⟩
    rw [← List.reverse_reverse operands, hreverse]
    rfl
  · simp at h

theorem build_compiled {registry : Registry} {operands : List Operand} {tokens : List Token}
    {e : Expression} (hoperands : ∀ operand ∈ operands, operand.expression.Compiled registry)
    (htokens : ∀ t ∈ tokens, t.kind.Proper) (h : (build registry operands tokens).1 = .ok e) :
    e.Compiled (build registry operands tokens).2 := by
  fun_induction build registry operands tokens with
  | case1 registry operands =>
    obtain ⟨operand, rfl, rfl⟩ := only_eq_ok h
    exact hoperands operand (by simp)
  | case2 registry operands t rest name hkind id grown hintern ih =>
    have hproper := htokens t (by simp)
    rw [hkind] at hproper
    have hname := registry.name?_intern name
    have hnames := registry.names_prefix_intern name
    rw [hintern] at hname hnames
    refine ih (fun operand hoperand => ?_) (fun u hu => htokens u (by simp [hu])) h
    rcases List.mem_cons.1 hoperand with rfl | hoperand
    · exact ⟨hname, hproper, .empty⟩
    -- The operands below know their names also from the registry that has grown.
    · exact (hoperands operand hoperand).mono hnames
  | case3 registry t rest op right left below hkind joined ih =>
    refine ih (fun operand hoperand => ?_) (fun u hu => htokens u (by simp [hu])) h
    rcases List.mem_cons.1 hoperand with rfl | hoperand
    · exact ⟨hoperands left (by simp), hoperands right (by simp), .empty⟩
    · exact hoperands operand (by simp [hoperand])
  | case5 registry t rest range top below hkind limited ih =>
    refine ih (fun operand hoperand => ?_) (fun u hu => htokens u (by simp [hu])) h
    rcases List.mem_cons.1 hoperand with rfl | hoperand
    · exact (hoperands top (by simp)).mapTally fun _ ht => ht.limitOccurrences range
    · exact hoperands operand (by simp [hoperand])
  | case7 registry t rest range top below hkind limited ih =>
    have hproper := htokens t (by simp)
    rw [hkind] at hproper
    refine ih (fun operand hoperand => ?_) (fun u hu => htokens u (by simp [hu])) h
    rcases List.mem_cons.1 hoperand with rfl | hoperand
    · exact (hoperands top (by simp)).mapTally fun _ ht => ht.limitTiming hproper
    · exact hoperands operand (by simp [hoperand])
  | _ => cases h

theorem names_ofLexemes (d : Defaults) (registry : Registry) (lexemes : List Lexeme) :
    registry.names <+: (ofLexemes d registry lexemes).2.names := by
  unfold ofLexemes
  split
  · exact List.prefix_refl _
  · exact List.prefix_refl _
  · exact names_build _ _ _

theorem ofLexemes_eq_ok {d : Defaults} {registry : Registry} {lexemes : List Lexeme}
    {e : Expression} (h : (ofLexemes d registry lexemes).1 = .ok e) :
    ∃ tokens ordered, Token.ofLexemes lexemes = .ok tokens ∧ Token.toPostfix tokens = .ok ordered ∧
      ofLexemes d registry lexemes = ofPostfix d registry ordered := by
  unfold ofLexemes at h ⊢
  cases htokens : Token.ofLexemes lexemes with
  | error fault => rw [htokens] at h; cases h
  | ok tokens =>
    rw [htokens] at h
    simp only [bind, Except.bind] at h ⊢
    cases hordered : Token.toPostfix tokens with
    | error fault => rw [hordered] at h; cases h
    | ok ordered =>
      rw [hordered] at h
      cases ordered with
      | nil => cases h
      | cons t ordered => exact ⟨tokens, t :: ordered, rfl, hordered, rfl⟩

theorem ofLexemes_compiled {d : Defaults} {registry : Registry} {lexemes : List Lexeme}
    {e : Expression} (hlexemes : ∀ l ∈ lexemes, l.Proper)
    (h : (ofLexemes d registry lexemes).1 = .ok e) :
    e.Compiled (ofLexemes d registry lexemes).2 ∧ e.Filled := by
  obtain ⟨tokens, ordered, htokens, hordered, heq⟩ := ofLexemes_eq_ok h
  rw [heq] at h ⊢
  obtain ⟨tree, htree, rfl⟩ := exists_of_map_eq_ok h
  have hproper : ∀ t ∈ ordered, t.kind.Proper := by
    intro t ht
    have hmem := Token.mem_of_order hordered t ht
    exact Token.read_proper hlexemes htokens t (by simpa using hmem)
  exact ⟨(build_compiled (by simp) hproper htree).withDefaults d, tree.withDefaults_filled d⟩

end Expression

/-! ## Patterns -/

namespace Pattern

theorem mem_of_cut {stop : Nat} {lexemes : List Lexeme} {step : List Lexeme × Nat}
    (h : step ∈ cut stop lexemes) : ∀ l ∈ step.1, l ∈ lexemes := by
  fun_induction cut stop lexemes generalizing step with
  | case1 =>
    rw [List.mem_singleton] at h
    subst h
    simp
  | case2 l rest hnext ih =>
    rcases List.mem_cons.1 h with rfl | h
    · simp
    · exact fun m hm => List.mem_cons_of_mem _ (ih h m hm)
  | case3 l rest hnext step' stop' others hcut ih =>
    rw [hcut] at ih
    rcases List.mem_cons.1 h with rfl | h
    · intro m hm
      rcases List.mem_cons.1 hm with rfl | hm
      · simp
      · exact List.mem_cons_of_mem _ (ih (List.mem_cons_self ..) m hm)
    · exact fun m hm => List.mem_cons_of_mem _ (ih (List.mem_cons_of_mem _ h) m hm)
  | case4 l rest hnext hcut ih =>
    rw [List.mem_singleton] at h
    subst h
    simp

theorem names_compile (d : Defaults) (registry : Registry) (cuts : List (List Lexeme × Nat)) :
    registry.names <+: (compile d registry cuts).2.names := by
  fun_induction compile d registry cuts with
  | case1 => exact List.prefix_refl _
  | case2 => exact List.prefix_refl _
  | case3 registry lexemes stop rest hne e grown hstep =>
    have hnames := Expression.names_ofLexemes d registry lexemes
    rwa [hstep] at hnames
  | case4 registry lexemes stop rest hne step grown hstep steps final hrest ih =>
    have hnames := Expression.names_ofLexemes d registry lexemes
    rw [hstep] at hnames
    rw [hrest] at ih
    exact hnames.trans ih

theorem compile_compiled {d : Defaults} {registry : Registry} {cuts : List (List Lexeme × Nat)}
    {steps : List Expression} (hcuts : ∀ step ∈ cuts, ∀ l ∈ step.1, l.Proper)
    (h : (compile d registry cuts).1 = .ok steps) :
    ∀ step ∈ steps, step.Compiled (compile d registry cuts).2 ∧ step.Filled := by
  fun_induction compile d registry cuts generalizing steps with
  | case1 => cases h; simp
  | case2 => cases h
  | case3 => cases h
  | case4 registry lexemes stop rest hne step grown hstep others final hrest ih =>
    obtain ⟨others, rfl, rfl⟩ := exists_of_map_eq_ok h
    have hcompiled := @Expression.ofLexemes_compiled d registry lexemes step
      (hcuts (lexemes, stop) (by simp))
    rw [hstep] at hcompiled
    have hcompiled := hcompiled rfl
    have hnames := names_compile d grown rest
    rw [hrest] at hnames ih
    intro e he
    rcases List.mem_cons.1 he with rfl | he
    · exact ⟨hcompiled.1.mono hnames, hcompiled.2⟩
    · exact ih (fun s hs => hcuts s (by simp [hs])) rfl e he

theorem parse_eq_ok {d : Defaults} {registry : Registry} {text : String} {p : Pattern}
    (h : (parse d registry text).1 = .ok p) :
    ∃ result, (compile d registry (cut result ((Lexeme.ofText text).takeWhile
        (! ·.isSymbol .result)))).1 = .ok p.steps ∧
      (parse d registry text).2 = (compile d registry (cut result ((Lexeme.ofText text).takeWhile
        (! ·.isSymbol .result)))).2 := by
  unfold parse at h ⊢
  dsimp only at h ⊢
  split at h
  · simp at h
  · rename_i result hresult
    obtain ⟨steps, hsteps, rfl⟩ := exists_of_map_eq_ok h
    exact ⟨result.position, hsteps, rfl⟩
  · simp at h

theorem parse_compiled {d : Defaults} {registry : Registry} {text : String} {p : Pattern}
    (h : (parse d registry text).1 = .ok p) :
    ∀ step ∈ p.steps, step.Compiled (parse d registry text).2 ∧ step.Filled := by
  obtain ⟨result, hsteps, hregistry⟩ := parse_eq_ok h
  rw [hregistry]
  refine compile_compiled (fun step hstep l hl => ?_) hsteps
  apply Lexeme.ofText_proper text
  exact (List.takeWhile_sublist _).mem (mem_of_cut hstep l hl)

end Pattern

end TimedPattern
