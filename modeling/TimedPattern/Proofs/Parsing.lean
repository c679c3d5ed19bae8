import TimedPattern.Proofs.Positions
import TimedPattern.Proofs.Registries
import TimedPattern.Proofs.RoundTrip

/-! # How a pattern is read -/

namespace TimedPattern

def Token.behaviorName? (t : Token) : Option String :=
  match t.kind with
  | .behavior name => some name
  | _ => none

namespace Pattern

/-! ## Parts -/

/-- The text has one `=>`, and the body is what stands in front of it. -/
structure Divided (text : String) (body : List Lexeme) (result : Lexeme) : Prop where
  arrow : result.isSymbol .result = true
  only : ∃ rest, Lexeme.ofText text = body ++ result :: rest ∧
    ∀ l ∈ body ++ rest, l.isSymbol .result = false

def segments (body : List Lexeme) : List (List Lexeme) := body.splitOnP (·.isSymbol .next)

/-- The lexemes that end the segments. -/
def ends (body : List Lexeme) (result : Lexeme) : List Lexeme :=
  body.filter (·.isSymbol .next) ++ [result]

/-- Segments are compiled from left to right, with the names of each one known to the next. -/
inductive Compiles (d : Defaults) :
    Registry → List (List Lexeme) → List Expression → Registry → Prop
  | nil (r : Registry) : Compiles d r [] [] r
  | cons {r r' r'' : Registry} {segment : List Lexeme} {rest : List (List Lexeme)}
      {step : Expression} {steps : List Expression} : segment ≠ [] →
      Expression.ofLexemes d r segment = (.ok step, r') → Compiles d r' rest steps r'' →
      Compiles d r (segment :: rest) (step :: steps) r''

/-- What reading a text comes to, and the segments that it looks at. -/
inductive ReadAs (d : Defaults) (r : Registry) (text : String) :
    List (List Lexeme) → Except PatternError Pattern → Registry → Prop
  | missingResult : (Lexeme.ofText text).filter (·.isSymbol .result) = [] →
      ReadAs d r text [] (.error ⟨.missingResult, text.utf8ByteSize⟩) r
  | duplicateResult {first second : Lexeme} {others : List Lexeme} :
      (Lexeme.ofText text).filter (·.isSymbol .result) = first :: second :: others →
      ReadAs d r text [] (.error ⟨.duplicateResult, second.position⟩) r
  | emptyStep {body : List Lexeme} {result stop : Lexeme} {before after : List (List Lexeme)}
      {steps : List Expression} {r' : Registry} : Divided text body result →
      segments body = before ++ [] :: after → Compiles d r before steps r' →
      (ends body result)[before.length]? = some stop →
      ReadAs d r text (before ++ [[]]) (.error ⟨.emptyStep, stop.position⟩) r'
  | faultyStep {body segment : List Lexeme} {result : Lexeme} {before after : List (List Lexeme)}
      {steps : List Expression} {e : PatternError} {r' r'' : Registry} :
      Divided text body result → segments body = before ++ segment :: after →
      Compiles d r before steps r' → segment ≠ [] →
      Expression.ofLexemes d r' segment = (.error e, r'') →
      ReadAs d r text (before ++ [segment]) (.error e) r''
  | pattern {body : List Lexeme} {result : Lexeme} {steps : List Expression} {r' : Registry}
      {before after : List Char} : Divided text body result →
      Compiles d r (segments body) steps r' →
      text.toList = before ++ Symbol.result.spelling ++ after →
      result.position = Text.byteLength before →
      ReadAs d r text (segments body)
        (.ok ⟨String.ofList ((Glyph.read 0 (Text.trim after)).map Glyph.char), steps⟩) r'

/-- The behaviors that a segment names, if it can be cut into tokens. -/
def behaviorNames (segment : List Lexeme) : List String :=
  match Token.ofLexemes segment with
  | .ok tokens => tokens.filterMap Token.behaviorName?
  | .error _ => []

/-! ## Cutting -/

theorem map_fst_cut (stop : Nat) (body : List Lexeme) :
    (cut stop body).map Prod.fst = segments body := by
  unfold segments
  fun_induction cut stop body with
  | case1 => rfl
  | case2 l rest hnext ih =>
    rw [List.map_cons, ih, List.splitOnP_cons_eq_if_modifyHead, if_pos hnext]
  | case3 l rest hnext step stop' others hcut ih =>
    rw [hcut] at ih
    rw [List.splitOnP_cons_eq_if_modifyHead, if_neg hnext, ← ih]
    rfl
  | case4 l rest hnext hcut ih => exact absurd hcut (cut_ne_nil _ _)

theorem map_snd_cut (body : List Lexeme) (result : Lexeme) :
    (cut result.position body).map Prod.snd = (ends body result).map Lexeme.position := by
  unfold ends
  induction body with
  | nil => rfl
  | cons l rest ih =>
    unfold cut
    split
    · rename_i hnext
      rw [List.map_cons, ih, List.filter_cons, if_pos hnext]
      rfl
    · rename_i hnext
      rw [List.filter_cons, if_neg hnext, ← ih]
      split
      · rename_i hcut
        rw [hcut]
        rfl
      · rename_i hcut
        exact absurd hcut (cut_ne_nil _ _)

theorem exists_cut_of_segments {body segment : List Lexeme} {before after : List (List Lexeme)}
    (h : segments body = before ++ segment :: after) (result : Lexeme) :
    ∃ front place back, cut result.position body = front ++ (segment, place) :: back ∧
      front.map Prod.fst = before ∧
        (ends body result)[before.length]?.map Lexeme.position = some place := by
  have hends := map_snd_cut body result
  rw [← map_fst_cut result.position body, List.map_eq_append_iff] at h
  obtain ⟨front, others, hcut, rfl, hothers⟩ := h
  obtain ⟨⟨_, place⟩, back, rfl, rfl, -⟩ := List.map_eq_cons_iff.1 hothers
  refine ⟨front, place, back, hcut, rfl, ?_⟩
  rw [← List.getElem?_map, ← hends, hcut, List.map_append]
  simp

theorem mem_of_mem_segments {body segment : List Lexeme} (h : segment ∈ segments body) {l : Lexeme}
    (hl : l ∈ segment) : l ∈ body := by
  rw [← map_fst_cut 0 body] at h
  obtain ⟨step, hstep, rfl⟩ := List.mem_map.1 h
  exact mem_of_cut hstep l hl

theorem Divided.takeWhile_eq {text : String} {body : List Lexeme} {result : Lexeme}
    (h : Divided text body result) :
    (Lexeme.ofText text).takeWhile (! ·.isSymbol .result) = body := by
  obtain ⟨rest, htext, hother⟩ := h.only
  have hbody : ∀ l ∈ body, (! l.isSymbol .result) = true := fun l hl => by
    rw [hother l (List.mem_append_left _ hl)]
    rfl
  rw [htext, List.takeWhile_append_of_pos hbody, List.takeWhile_cons_of_neg (by simp [h.arrow]),
    List.append_nil]

theorem Divided.filter_eq {text : String} {body : List Lexeme} {result : Lexeme}
    (h : Divided text body result) :
    (Lexeme.ofText text).filter (·.isSymbol .result) = [result] := by
  obtain ⟨rest, htext, hother⟩ := h.only
  refine List.filter_eq_cons_iff.2 ⟨body, rest, htext, fun l hl => ?_, h.arrow, ?_⟩
  · simp [hother l (List.mem_append_left _ hl)]
  · exact List.filter_eq_nil_iff.2 fun l hl => by simp [hother l (List.mem_append_right _ hl)]

theorem divided_of_filter {text : String} {result : Lexeme}
    (h : (Lexeme.ofText text).filter (·.isSymbol .result) = [result]) :
    Divided text ((Lexeme.ofText text).takeWhile (! ·.isSymbol .result)) result := by
  obtain ⟨body, rest, htext, hbody, hresult, hrest⟩ := List.filter_eq_cons_iff.1 h
  rw [List.filter_eq_nil_iff] at hrest
  have hdivided : Divided text body result := by
    refine ⟨hresult, rest, htext, fun l hl => ?_⟩
    rw [Bool.eq_false_iff]
    exact (List.mem_append.1 hl).elim (hbody l) (hrest l)
  rwa [hdivided.takeWhile_eq]

theorem Divided.mem {text : String} {body : List Lexeme} {result : Lexeme}
    (h : Divided text body result) : ∀ l ∈ body ++ [result], l ∈ Lexeme.ofText text := by
  obtain ⟨rest, htext, -⟩ := h.only
  intro l hl
  rw [htext, ← List.singleton_append, ← List.append_assoc]
  exact List.mem_append_left rest hl

theorem Divided.exists_name {text : String} {body : List Lexeme} {result : Lexeme}
    (h : Divided text body result) :
    ∃ before after, text.toList = before ++ Symbol.result.spelling ++ after ∧
      result.position = Text.byteLength before :=
  Lexeme.exists_spelling_of_mem (h.mem result (by simp)) (of_decide_eq_true h.arrow)

theorem nameAfter_eq {result : Lexeme} {text before after : List Char}
    (htext : text = before ++ Symbol.result.spelling ++ after)
    (hposition : result.position = Text.byteLength before) :
    nameAfter result text =
      String.ofList ((Glyph.read 0 (Text.trim after)).map Glyph.char) := by
  have hlength : result.position + Symbol.result.spelling.length =
      Text.byteLength (before ++ Symbol.result.spelling) := by
    rw [hposition, Text.byteLength_append]
    rfl
  rw [nameAfter, hlength, htext, Text.dropBytes_append]

/-! ## Compiling -/

theorem compile_leftmost (d : Defaults) (r : Registry) (cuts : List (List Lexeme × Nat)) :
    (∃ steps r', compile d r cuts = (.ok steps, r') ∧
      Compiles d r (cuts.map Prod.fst) steps r') ∨
    ∃ before segment stop after steps r' e r'', cuts = before ++ (segment, stop) :: after ∧
      Compiles d r (before.map Prod.fst) steps r' ∧ compile d r cuts = (.error e, r'') ∧
        (segment = [] ∧ e = ⟨.emptyStep, stop⟩ ∧ r'' = r' ∨
          segment ≠ [] ∧ Expression.ofLexemes d r' segment = (.error e, r'')) := by
  fun_induction compile d r cuts with
  | case1 r => exact .inl ⟨[], r, rfl, .nil r⟩
  | case2 r stop rest =>
    exact .inr ⟨[], [], stop, rest, [], r, _, r, rfl, .nil r, rfl, .inl ⟨rfl, rfl, rfl⟩⟩
  | case3 r segment stop rest hne e r' hstep =>
    exact .inr ⟨[], segment, stop, rest, [], r, e, r', rfl, .nil r, rfl, .inr ⟨hne, hstep⟩⟩
  | case4 r segment stop rest hne step r' hstep result r'' hrest ih =>
    rcases ih with ⟨steps, final, heq, hsteps⟩ |
      ⟨before, faulty, place, after, steps, final, e, last, rfl, hsteps, heq, hfault⟩
    · rw [hrest] at heq
      cases heq
      exact .inl ⟨step :: steps, r'', rfl, .cons hne hstep hsteps⟩
    · rw [hrest] at heq
      cases heq
      exact .inr ⟨(segment, stop) :: before, faulty, place, after, step :: steps, final, e, r'',
        rfl, .cons hne hstep hsteps, rfl, hfault⟩

section

variable {d : Defaults} {r r' : Registry} {segment : List Lexeme}

theorem compile_step {step : Expression} (hne : segment ≠ [])
    (h : Expression.ofLexemes d r segment = (.ok step, r')) (stop : Nat)
    (rest : List (List Lexeme × Nat)) :
    compile d r ((segment, stop) :: rest) =
      ((compile d r' rest).1.map (step :: ·), (compile d r' rest).2) := by
  rw [compile, h]
  exact hne

theorem compile_fault {e : PatternError} (hne : segment ≠ [])
    (h : Expression.ofLexemes d r segment = (.error e, r')) (stop : Nat)
    (rest : List (List Lexeme × Nat)) :
    compile d r ((segment, stop) :: rest) = (.error e, r') := by
  rw [compile, h]
  exact hne

end

theorem compile_append {d : Defaults} {r r' : Registry} {before : List (List Lexeme × Nat)}
    {steps : List Expression} (h : Compiles d r (before.map Prod.fst) steps r')
    (rest : List (List Lexeme × Nat)) :
    compile d r (before ++ rest) =
      ((compile d r' rest).1.map (steps ++ ·), (compile d r' rest).2) := by
  induction before generalizing r steps with
  | nil =>
    cases h
    cases hrest : (compile d r' rest).1 with
    | error e => exact Prod.ext hrest rfl
    | ok others => exact Prod.ext hrest rfl
  | cons first before ih =>
    obtain ⟨segment, stop⟩ := first
    cases h with
    | cons hne hstep hsteps =>
      rw [List.cons_append, compile_step hne hstep, ih hsteps]
      cases (compile d r' rest).1 <;> rfl

/-! ## Results -/

theorem parse_readAs (d : Defaults) (r : Registry) (text : String) :
    ∃ seen, ReadAs d r text seen (parse d r text).1 (parse d r text).2 := by
  unfold parse
  dsimp only
  split
  · rename_i hnone
    exact ⟨[], .missingResult hnone⟩
  · rename_i result hone
    have hdivided := divided_of_filter hone
    generalize (Lexeme.ofText text).takeWhile (! ·.isSymbol .result) = body at hdivided ⊢
    have hsegments := map_fst_cut result.position body
    have hends := map_snd_cut body result
    -- Compiling stops at the leftmost segment that is empty or at fault.
    rcases compile_leftmost d r (cut result.position body) with ⟨steps, r', heq, hsteps⟩ |
      ⟨before, segment, stop, after, steps, r', e, r'', hcut, hsteps, heq, hfault⟩
    · rw [hsegments] at hsteps
      obtain ⟨before, after, htext, hposition⟩ := hdivided.exists_name
      have hname := nameAfter_eq htext hposition
      rw [heq]
      exact ⟨segments body, hname ▸ .pattern hdivided hsteps htext hposition⟩
    · rw [heq]
      rw [hcut, List.map_append, List.map_cons] at hsegments hends
      rcases hfault with ⟨rfl, rfl, rfl⟩ | ⟨hne, hstep⟩
      · obtain ⟨last, hend, rfl⟩ : ∃ last, (ends body result)[before.length]? = some last ∧
            last.position = stop := by
          have hplace : ((ends body result).map Lexeme.position)[before.length]? = some stop := by
            rw [← hends]
            simp
          simpa using hplace
        refine ⟨_, .emptyStep hdivided hsegments.symm hsteps ?_⟩
        rwa [List.length_map]
      · exact ⟨_, .faultyStep hdivided hsegments.symm hsteps hne hstep⟩
  · rename_i first second others hmore
    exact ⟨[], .duplicateResult hmore⟩

theorem Divided.parse_eq {text : String} {body : List Lexeme} {result : Lexeme}
    (h : Divided text body result) (d : Defaults) (r : Registry) :
    parse d r text =
      ((compile d r (cut result.position body)).1.map fun steps =>
        ⟨nameAfter result text.toList, steps⟩, (compile d r (cut result.position body)).2) := by
  unfold parse
  simp only [h.filter_eq, h.takeWhile_eq]

theorem ReadAs.parse_eq {d : Defaults} {r r' : Registry} {text : String}
    {seen : List (List Lexeme)} {outcome : Except PatternError Pattern}
    (h : ReadAs d r text seen outcome r') : parse d r text = (outcome, r') := by
  cases h with
  | missingResult hnone =>
    unfold parse
    simp only [hnone]
  | duplicateResult hmore =>
    unfold parse
    simp only [hmore]
  | @emptyStep body result stop _ _ _ _ hdivided hsegments hsteps hstop =>
    obtain ⟨front, place, back, hcut, rfl, hplace⟩ := exists_cut_of_segments hsegments result
    rw [hstop] at hplace
    obtain rfl := Option.some.inj hplace
    rw [hdivided.parse_eq, hcut, compile_append hsteps, compile]
    rfl
  | @faultyStep body segment result _ _ _ _ _ _ hdivided hsegments hsteps hne hstep =>
    obtain ⟨front, place, back, hcut, rfl, -⟩ := exists_cut_of_segments hsegments result
    rw [hdivided.parse_eq, hcut, compile_append hsteps, compile_fault hne hstep]
    rfl
  | @pattern body result _ _ _ _ hdivided hsteps htext hposition =>
    rw [← map_fst_cut result.position body] at hsteps
    have hall := compile_append hsteps []
    rw [List.append_nil] at hall
    rw [hdivided.parse_eq, hall, nameAfter_eq htext hposition]
    simp [compile, Except.map]

/-! ## Success -/

theorem exists_ofLexemes_ok {d : Defaults} {r : Registry} {segment : List Lexeme}
    (h : ∃ step, (Expression.ofLexemes d r segment).1 = .ok step) (s : Registry) :
    ∃ step, (Expression.ofLexemes d s segment).1 = .ok step := by
  obtain ⟨step, hstep⟩ := h
  have halike := Expression.ofLexemes_alike d r s segment
  rw [hstep] at halike
  cases hother : (Expression.ofLexemes d s segment).1 with
  | error e => rw [hother] at halike; cases halike
  | ok other => exact ⟨other, rfl⟩

theorem Compiles.alone {d : Defaults} {r r' : Registry} {segments : List (List Lexeme)}
    {steps : List Expression} (h : Compiles d r segments steps r') (s : Registry) :
    ∀ segment ∈ segments,
      segment ≠ [] ∧ ∃ step, (Expression.ofLexemes d s segment).1 = .ok step := by
  induction h with
  | nil => simp
  | cons hne hstep _ ih =>
    exact List.forall_mem_cons.2 ⟨⟨hne, exists_ofLexemes_ok ⟨_, congrArg Prod.fst hstep⟩ s⟩, ih⟩

theorem exists_parse_iff (d : Defaults) (r : Registry) (text : String) :
    (∃ p, (parse d r text).1 = .ok p) ↔ ∃ body result, Divided text body result ∧
      ∀ segment ∈ segments body,
        segment ≠ [] ∧ ∃ step, (Expression.ofLexemes d r segment).1 = .ok step := by
  obtain ⟨seen, hread⟩ := parse_readAs d r text
  generalize (parse d r text).1 = outcome, (parse d r text).2 = r' at hread ⊢
  constructor
  · rintro ⟨p, rfl⟩
    cases hread with
    | pattern hdivided hsteps => exact ⟨_, _, hdivided, hsteps.alone r⟩
  · rintro ⟨body, result, hdivided, hsegments⟩
    have hsame {body' : List Lexeme} {result' : Lexeme} (h : Divided text body' result') :
        body' = body := by rw [← h.takeWhile_eq, hdivided.takeWhile_eq]
    cases hread with
    | missingResult hnone =>
      rw [hdivided.filter_eq] at hnone
      cases hnone
    | duplicateResult hmore =>
      rw [hdivided.filter_eq] at hmore
      cases hmore
    | emptyStep hdivided' hcut =>
      obtain rfl := hsame hdivided'
      exact absurd rfl (hsegments [] (by simp [hcut])).1
    | @faultyStep _ segment _ _ _ _ _ _ _ hdivided' hcut _ _ hstep =>
      obtain rfl := hsame hdivided'
      obtain ⟨step, hok⟩ := exists_ofLexemes_ok (hsegments segment (by simp [hcut])).2 _
      rw [hstep] at hok
      cases hok
    | pattern => exact ⟨_, rfl⟩

/-! ## Names -/

theorem names_intern_subset (r : Registry) (name : String) :
    ∀ other ∈ (r.intern name).2.names, other ∈ r.names ∨ other = name := by
  unfold Registry.intern
  intro other hother
  split at hother
  · exact .inl hother
  · simpa using hother

theorem names_build_subset (r : Registry) (operands : List Operand) (tokens : List Token) :
    ∀ name ∈ (Expression.build r operands tokens).2.names,
      name ∈ r.names ∨ name ∈ tokens.filterMap Token.behaviorName? := by
  have hlater {t : Token} {rest : List Token} {name : String}
      (h : name ∈ rest.filterMap Token.behaviorName?) :
      name ∈ (t :: rest).filterMap Token.behaviorName? := by
    obtain ⟨u, hu, hname⟩ := List.mem_filterMap.1 h
    exact List.mem_filterMap.2 ⟨u, List.mem_cons_of_mem _ hu, hname⟩
  intro name hname
  fun_induction Expression.build r operands tokens with
  | case2 r operands t rest new hkind id grown hintern ih =>
    rcases ih hname with hold | hnew
    · have hinterned := names_intern_subset r new name
      rw [hintern] at hinterned
      rcases hinterned hold with hold | rfl
      · exact .inl hold
      · refine .inr (List.mem_filterMap.2 ⟨t, List.mem_cons_self, ?_⟩)
        rw [Token.behaviorName?, hkind]
    · exact .inr (hlater hnew)
  | case3 r t rest op right left below hkind joined ih => exact (ih hname).imp_right hlater
  | case5 r t rest range top below hkind limited ih => exact (ih hname).imp_right hlater
  | case7 r t rest range top below hkind limited ih => exact (ih hname).imp_right hlater
  | _ => exact .inl hname

theorem names_ofLexemes_subset (d : Defaults) (r : Registry) (segment : List Lexeme) :
    ∀ name ∈ (Expression.ofLexemes d r segment).2.names,
      name ∈ r.names ∨ name ∈ behaviorNames segment := by
  intro name hname
  unfold Expression.ofLexemes at hname
  unfold behaviorNames
  cases htokens : Token.ofLexemes segment with
  | error e =>
    rw [htokens] at hname
    exact .inl hname
  | ok tokens =>
    rw [htokens] at hname
    simp only [bind, Except.bind] at hname
    split at hname
    · exact .inl hname
    · exact .inl hname
    · rename_i ordered _ hordered
      refine (names_build_subset r [] ordered name hname).imp_right fun hnew => ?_
      obtain ⟨t, ht, hbehavior⟩ := List.mem_filterMap.1 hnew
      have hmem := Token.mem_of_order hordered t ht
      exact List.mem_filterMap.2 ⟨t, by simpa using hmem, hbehavior⟩

theorem Compiles.names {d : Defaults} {r r' : Registry} {segments : List (List Lexeme)}
    {steps : List Expression} (h : Compiles d r segments steps r') :
    ∀ name ∈ r'.names, name ∈ r.names ∨ name ∈ segments.flatMap behaviorNames := by
  induction h with
  | nil => exact fun name hname => .inl hname
  | @cons r r' r'' segment rest step steps hne hstep _ ih =>
    have hsegment := names_ofLexemes_subset d r segment
    rw [hstep] at hsegment
    intro name hname
    rw [List.flatMap_cons, List.mem_append]
    rcases ih name hname with hname | hlater
    · exact (hsegment name hname).imp_right .inl
    · exact .inr (.inr hlater)

theorem ReadAs.names {d : Defaults} {r r' : Registry} {text : String} {seen : List (List Lexeme)}
    {outcome : Except PatternError Pattern} (h : ReadAs d r text seen outcome r') :
    ∀ name ∈ r'.names, name ∈ r.names ∨ name ∈ seen.flatMap behaviorNames := by
  intro name hname
  cases h with
  | missingResult => exact .inl hname
  | duplicateResult => exact .inl hname
  | emptyStep _ _ hsteps =>
    rw [List.flatMap_append, List.mem_append]
    exact (hsteps.names name hname).imp_right .inl
  | @faultyStep _ segment _ _ _ _ _ between _ _ _ hsteps _ hstep =>
    have hsegment := names_ofLexemes_subset d between segment
    rw [hstep] at hsegment
    rw [List.flatMap_append, List.mem_append, List.flatMap_singleton]
    rcases hsegment name hname with hname | hnew
    · exact (hsteps.names name hname).imp_right .inl
    · exact .inr (.inr hnew)
  | pattern _ hsteps => exact hsteps.names name hname

/-! ## Places of faults -/

theorem ReadAs.position {d : Defaults} {r r' : Registry} {text : String}
    {seen : List (List Lexeme)} {e : PatternError} (h : ReadAs d r text seen (.error e) r') :
    e.position ≤ text.utf8ByteSize := by
  cases h with
  | missingResult => exact Nat.le_refl _
  | @duplicateResult first second others hmore =>
    have hmem : second ∈ (Lexeme.ofText text).filter (·.isSymbol .result) := by simp [hmore]
    exact Lexeme.position_le_of_mem (List.mem_filter.1 hmem).1
  | @emptyStep body result stop _ _ _ _ hdivided _ _ hstop =>
    refine Lexeme.position_le_of_mem (hdivided.mem stop ?_)
    have hmem := List.mem_of_getElem? hstop
    rw [ends, List.mem_append] at hmem
    exact List.mem_append.2 (hmem.imp_left fun h => (List.mem_filter.1 h).1)
  | @faultyStep body segment _ _ _ _ _ between _ hdivided hcut _ _ hstep =>
    refine Expression.position_le_of_ofLexemes (fun l hl => ?_) (congrArg Prod.fst hstep)
    have hsegment : segment ∈ segments body := by simp [hcut]
    refine Lexeme.position_le_of_mem (hdivided.mem l (List.mem_append_left _ ?_))
    exact mem_of_mem_segments hsegment hl

/-- Reading succeeds if there is one `=>` and all segments compile. Otherwise it reports the
leftmost fault, which lies within the text. The name is always cut from where `=>` really ends. Old
names keep their numbers, and new ones come from the segments up to the fault. -/
theorem parse_leftmost (d : Defaults) (r : Registry) (text : String) :
    ((∃ p, (parse d r text).1 = .ok p) ↔ ∃ body result, Divided text body result ∧
        ∀ segment ∈ segments body,
          segment ≠ [] ∧ ∃ step, (Expression.ofLexemes d r segment).1 = .ok step) ∧
      (∀ outcome r', parse d r text = (outcome, r') ↔ ∃ seen, ReadAs d r text seen outcome r') ∧
      (∀ e, (parse d r text).1 = .error e → e.position ≤ text.utf8ByteSize) ∧
      (∀ body result, Divided text body result →
        ∃ before after, text.toList = before ++ Symbol.result.spelling ++ after ∧
          result.position = Text.byteLength before) ∧
      (∀ name id, r.get? name = some id → (parse d r text).2.get? name = some id) ∧
      ∀ seen outcome r', ReadAs d r text seen outcome r' →
        ∀ name ∈ r'.names, name ∈ r.names ∨ name ∈ seen.flatMap behaviorNames := by
  obtain ⟨seen, hread⟩ := parse_readAs d r text
  refine ⟨exists_parse_iff d r text, fun outcome r' => ⟨?_, ?_⟩, fun e he => ?_,
    fun _ _ h => h.exists_name, fun name id hid => ?_, fun _ _ _ h => h.names⟩
  · intro h
    rw [h] at hread
    exact ⟨seen, hread⟩
  · rintro ⟨seen, h⟩
    exact h.parse_eq
  · rw [he] at hread
    exact hread.position
  · rw [Registry.get?_eq_some_iff] at hid ⊢
    exact Registry.name?_of_prefix (names_parse d r text) hid

end Pattern

end TimedPattern
