import Mathlib.Data.List.TakeWhile
import TimedPattern.Proofs.Placement

/-! # What ordering keeps -/

namespace TimedPattern.Token

/-! ## Kinds of tokens -/

def isGroupClose (t : Token) : Bool :=
  match t.kind with
  | .groupClose => true
  | _ => false

def isBracket (t : Token) : Bool := t.isGroupOpen || t.isGroupClose

def isBehavior (t : Token) : Bool :=
  match t.kind with
  | .behavior _ => true
  | _ => false

def isLimit (t : Token) : Bool :=
  match t.kind with
  | .occurrences _ | .timing _ => true
  | _ => false

/-- What a limit may follow. -/
def endsOperand (t : Token) : Bool := t.isBehavior || t.isGroupClose || t.isLimit

theorem isBracket_of_isBehavior {t : Token} (h : t.isBehavior = true) : t.isBracket = false := by
  obtain ⟨kind, position⟩ := t
  cases kind with
  | behavior name => rfl
  | _ => cases h

theorem isBehavior_of_isBracket {t : Token} (h : t.isBracket = true) : t.isBehavior = false := by
  cases hname : t.isBehavior with
  | false => rfl
  | true => exact absurd (isBracket_of_isBehavior hname) (by simp [h])

theorem isGroupOpen_of_isGroupClose {t : Token} (h : t.isGroupClose = true) :
    t.isGroupOpen = false := by
  obtain ⟨kind, position⟩ := t
  cases kind with
  | groupOpen => cases h
  | _ => rfl

/-! ## What is accepted -/

/-- Every limit stands right behind a behavior, a closing bracket or another limit. -/
def LimitsFollow (tokens : List Token) : Prop :=
  ∀ before t after, tokens = before ++ t :: after → t.isLimit = true →
    ∃ last ∈ before.getLast?, last.endsOperand = true

/-- No beginning closes more groups than it opens, and in the end all of them are closed. -/
structure Balanced (tokens : List Token) : Prop where
  within : ∀ before, before <+: tokens →
    before.countP isGroupClose ≤ before.countP isGroupOpen
  whole : tokens.countP isGroupClose = tokens.countP isGroupOpen

/-- Limits follow operands, given whether an operand was just complete. -/
def limited (afterOperand : Bool) : List Token → Bool
  | [] => true
  | t :: rest => (! t.isLimit || afterOperand) && limited t.endsOperand rest

theorem limited_iff (afterOperand : Bool) (tokens : List Token) :
    limited afterOperand tokens = true ↔ ∀ before t after, tokens = before ++ t :: after →
      t.isLimit = true → (before.getLast?.map endsOperand).getD afterOperand = true := by
  induction tokens generalizing afterOperand with
  | nil => simp [limited]
  | cons u rest ih =>
    have hhead : (! u.isLimit || afterOperand) = true ↔
        (u.isLimit = true → afterOperand = true) := by
      cases u.isLimit <;> simp
    rw [limited, Bool.and_eq_true, hhead, ih]
    constructor
    · rintro ⟨hfirst, hrest⟩ before t after h hlimit
      cases before with
      | nil =>
        obtain ⟨rfl, -⟩ := List.cons.inj h
        exact hfirst hlimit
      | cons v before =>
        obtain ⟨rfl, hrest'⟩ := List.cons.inj h
        have hlast := hrest before t after hrest' hlimit
        cases before with
        | nil => exact hlast
        | cons w before => rwa [List.getLast?_cons_cons]
    · refine fun h => ⟨h [] u rest rfl, fun before t after hrest hlimit => ?_⟩
      have hlast := h (u :: before) t after (by rw [hrest]; rfl) hlimit
      cases before with
      | nil => exact hlast
      | cons w before => rwa [List.getLast?_cons_cons] at hlast

theorem limited_iff_limitsFollow (tokens : List Token) :
    limited false tokens = true ↔ LimitsFollow tokens := by
  rw [limited_iff]
  refine forall₃_congr fun before t after => imp_congr_right fun _ => imp_congr_right fun _ => ?_
  cases before.getLast? <;> simp

theorem balanced_cons (opened : Nat) (t : Token) (rest : List Token) :
    balanced opened (t :: rest) =
      if t.isGroupOpen then balanced (opened + 1) rest
      else if t.isGroupClose then 0 < opened && balanced (opened - 1) rest
      else balanced opened rest := by
  obtain ⟨kind, position⟩ := t
  cases kind <;> rfl

theorem forall_prefix_cons {p : List Token → Prop} {t : Token} {rest : List Token} (hnil : p []) :
    (∀ before, before <+: t :: rest → p before) ↔ ∀ before, before <+: rest → p (t :: before) := by
  constructor
  · exact fun h before hbefore => h _ ((List.prefix_cons_inj t).2 hbefore)
  · intro h before hbefore
    rcases List.prefix_cons_iff.1 hbefore with rfl | ⟨others, rfl, hothers⟩
    · exact hnil
    · exact h others hothers

theorem balanced_iff (opened : Nat) (tokens : List Token) :
    balanced opened tokens = true ↔
      (∀ before, before <+: tokens →
        before.countP isGroupClose ≤ opened + before.countP isGroupOpen) ∧
      tokens.countP isGroupClose = opened + tokens.countP isGroupOpen := by
  induction tokens generalizing opened with
  | nil =>
    have hnone : (opened == 0) = true ↔ 0 = opened := beq_iff_eq.trans eq_comm
    simpa [balanced] using hnone
  | cons t rest ih =>
    rw [forall_prefix_cons (Nat.zero_le _)]
    have hcloses (l : List Token) : (t :: l).countP isGroupClose =
        l.countP isGroupClose + if t.isGroupClose then 1 else 0 := List.countP_cons
    have hopens (l : List Token) : (t :: l).countP isGroupOpen =
        l.countP isGroupOpen + if t.isGroupOpen then 1 else 0 := List.countP_cons
    simp only [hcloses, hopens, balanced_cons]
    cases hopen : t.isGroupOpen with
    | true =>
      have hclose : t.isGroupClose = false := by
        cases hclose : t.isGroupClose with
        | false => rfl
        | true => exact absurd (isGroupOpen_of_isGroupClose hclose) (by simp [hopen])
      simp only [hclose, if_true, Bool.false_eq_true, if_false, ih]
      exact and_congr (forall₂_congr fun before _ => by omega) (by omega)
    | false =>
      simp only [Bool.false_eq_true, if_false]
      cases t.isGroupClose with
      | true =>
        simp only [if_true, Bool.and_eq_true, decide_eq_true_iff, ih]
        constructor
        · rintro ⟨hopened, hwithin, hwhole⟩
          refine ⟨fun before hbefore => ?_, by omega⟩
          have hle := hwithin before hbefore
          omega
        · rintro ⟨hwithin, hwhole⟩
          -- Already the first token must not close more than is open.
          have hfirst := hwithin [] List.nil_prefix
          simp only [List.countP_nil] at hfirst
          refine ⟨by omega, fun before hbefore => ?_, by omega⟩
          have hle := hwithin before hbefore
          omega
      | false => simp only [Bool.false_eq_true, if_false, Nat.add_zero, ih]

theorem balanced_iff_balanced (tokens : List Token) :
    balanced 0 tokens = true ↔ Balanced tokens := by
  rw [balanced_iff]
  simp only [Nat.zero_add]
  exact ⟨fun h => ⟨h.1, h.2⟩, fun h => ⟨h.within, h.whole⟩⟩

theorem drain_of_depth {waiting : List Token} (h : depth waiting = 0) :
    drain waiting = .ok waiting := by
  refine @drain_of_yields 0 waiting fun t ht => ?_
  have hopen := List.countP_eq_zero.1 h t ht
  exact ⟨by simpa using hopen, Nat.zero_le _⟩

theorem exists_endGroup? {waiting : List Token} (h : 0 < depth waiting) :
    ∃ group below, endGroup? waiting = some (group, below) := by
  unfold endGroup?
  rw [List.span_eq_takeWhile_dropWhile]
  cases hrest : waiting.dropWhile (! ·.isGroupOpen) with
  | nil =>
    have hdepth := @depth_dropWhile (! ·.isGroupOpen) waiting (by simp)
    rw [hrest] at hdepth
    exact absurd hdepth.symm (Nat.ne_of_gt h)
  | cons opened below => exact ⟨_, below, rfl⟩

/-! ## One token -/

/-- What one token writes out of the operators that wait, and what waits behind it. -/
inductive Moves (t : Token) : (waiting written after : List Token) → Prop
  | behavior {waiting : List Token} (ht : t.isBehavior = true) : Moves t waiting [t] waiting
  | groupOpen {waiting : List Token} (ht : t.isGroupOpen = true) : Moves t waiting [] (t :: waiting)
  | groupClose {written after : List Token} (opened : Token) (ht : t.isGroupClose = true)
      (hwritten : ∀ u ∈ written, u.isGroupOpen = false) (hopened : opened.isGroupOpen = true) :
      Moves t (written ++ opened :: after) written after
  | waits {written staying : List Token} (ht : t.isBracket = false) (hname : t.isBehavior = false)
      (hwritten : ∀ u ∈ written, u.isGroupOpen = false) :
      Moves t (written ++ staying) written (t :: staying)

theorem moves_release {t : Token} (ht : t.isBracket = false) (hname : t.isBehavior = false)
    (waiting : List Token) : Moves t waiting (release t.precedence waiting).1
      (t :: (release t.precedence waiting).2) := by
  unfold release
  rw [List.span_eq_takeWhile_dropWhile]
  have hmoves := @Moves.waits t
    (waiting.takeWhile fun top => ! top.isGroupOpen && t.precedence ≤ top.precedence)
    (waiting.dropWhile fun top => ! top.isGroupOpen && t.precedence ≤ top.precedence) ht hname
    fun u hu => by
      have hheld := List.mem_takeWhile_imp hu
      simp only [Bool.and_eq_true, Bool.not_eq_true'] at hheld
      exact hheld.1
  rwa [List.takeWhile_append_dropWhile] at hmoves

theorem moves_endGroup? {t : Token} (ht : t.isGroupClose = true) {waiting group below : List Token}
    (h : endGroup? waiting = some (group, below)) : Moves t waiting group below := by
  unfold endGroup? at h
  rw [List.span_eq_takeWhile_dropWhile] at h
  split at h
  · rename_i opened rest hspan
    simp only [Prod.mk.injEq, Option.some.injEq] at h hspan
    obtain ⟨rfl, rfl⟩ := h
    have hopened := List.head?_dropWhile_not (! ·.isGroupOpen) waiting
    rw [hspan.2] at hopened
    have hmoves := @Moves.groupClose t (waiting.takeWhile (! ·.isGroupOpen)) rest opened ht
      (fun u hu => by simpa using List.mem_takeWhile_imp hu) (by simpa using hopened)
    rwa [← hspan.2, List.takeWhile_append_dropWhile, hspan.1] at hmoves
  · cases h

theorem depth_written {written : List Token} (h : ∀ u ∈ written, u.isGroupOpen = false)
    (waiting : List Token) : depth (written ++ waiting) = depth waiting := by
  have hnone : depth written = 0 := List.countP_eq_zero.2 fun u hu => by simp [h u hu]
  unfold depth at hnone ⊢
  rw [List.countP_append, hnone, Nat.zero_add]

theorem Moves.balanced {t : Token} {waiting written after rest : List Token}
    (h : Moves t waiting written after) (hbalanced : balanced (depth waiting) (t :: rest) = true) :
    Token.balanced (depth after) rest = true := by
  rw [balanced_cons] at hbalanced
  cases h with
  | behavior ht =>
    obtain ⟨hopen, hclose⟩ := Bool.or_eq_false_iff.1 (isBracket_of_isBehavior ht)
    simpa [hopen, hclose] using hbalanced
  | groupOpen ht =>
    have hdepth : depth (t :: waiting) = depth waiting + 1 := List.countP_cons_of_pos ht
    simpa [ht, hdepth] using hbalanced
  | groupClose opened ht hwritten hopened =>
    have hopen := isGroupOpen_of_isGroupClose ht
    have hdepth : depth (opened :: after) = depth after + 1 := List.countP_cons_of_pos hopened
    simpa [hopen, ht, depth_written hwritten, hdepth] using hbalanced
  | @waits written staying ht hname hwritten =>
    obtain ⟨hopen, hclose⟩ := Bool.or_eq_false_iff.1 ht
    have hdepth : depth (t :: staying) = depth staying := List.countP_cons_of_neg (by simp [hopen])
    simpa [hopen, hclose, depth_written hwritten, hdepth] using hbalanced

/-- All that ordering does with the first token. -/
theorem order_cons (waiting : List Token) (afterOperand : Bool) (t : Token) (rest : List Token) :
    (∃ e, order waiting afterOperand (t :: rest) = .error e) ∧
        (t.isLimit = true ∧ afterOperand = false ∨ t.isGroupClose = true ∧ depth waiting = 0) ∨
      (t.isLimit = true → afterOperand = true) ∧ ∃ written after, Moves t waiting written after ∧
        order waiting afterOperand (t :: rest) =
          (order after t.endsOperand rest).map (written ++ ·) := by
  obtain ⟨kind, position⟩ := t
  cases kind with
  | behavior name => exact .inr ⟨by simp [isLimit], _, _, .behavior rfl, rfl⟩
  | groupOpen =>
    refine .inr ⟨by simp [isLimit], _, _, .groupOpen rfl, ?_⟩
    change order (⟨.groupOpen, position⟩ :: waiting) false rest =
      (order (⟨.groupOpen, position⟩ :: waiting) false rest).map id
    cases order (⟨.groupOpen, position⟩ :: waiting) false rest <;> rfl
  | groupClose =>
    by_cases hdepth : depth waiting = 0
    · have hend : endGroup? waiting = none := by
        cases hend : endGroup? waiting with
        | none => rfl
        | some split => exact absurd (depth_endGroup? hend) (by omega)
      refine .inl ⟨⟨⟨.groupNotOpened, position⟩, ?_⟩, .inr ⟨rfl, hdepth⟩⟩
      simp only [order, hend]
    · obtain ⟨group, below, hend⟩ := exists_endGroup? (Nat.pos_of_ne_zero hdepth)
      refine .inr ⟨by simp [isLimit], _, _, moves_endGroup? rfl hend, ?_⟩
      simp only [order, hend]
      rfl
  | operator op => exact .inr ⟨by simp [isLimit], _, _, moves_release rfl rfl waiting, rfl⟩
  | occurrences range =>
    cases afterOperand with
    | false => exact .inl ⟨⟨_, rfl⟩, .inl ⟨rfl, rfl⟩⟩
    | true => exact .inr ⟨fun _ => rfl, _, _, moves_release rfl rfl waiting, rfl⟩
  | timing range =>
    cases afterOperand with
    | false => exact .inl ⟨⟨_, rfl⟩, .inl ⟨rfl, rfl⟩⟩
    | true => exact .inr ⟨fun _ => rfl, _, _, moves_release rfl rfl waiting, rfl⟩

theorem order_cons_eq_ok {waiting rest ordered : List Token} {afterOperand : Bool} {t : Token}
    (h : order waiting afterOperand (t :: rest) = .ok ordered) :
    (t.isLimit = true → afterOperand = true) ∧ ∃ written after others,
      Moves t waiting written after ∧ order after t.endsOperand rest = .ok others ∧
        ordered = written ++ others := by
  rcases order_cons waiting afterOperand t rest with
    ⟨⟨e, herror⟩, -⟩ | ⟨hlimit, written, after, hmoves, hcons⟩
  · rw [herror] at h
    cases h
  · rw [hcons] at h
    obtain ⟨others, hrest, rfl⟩ := exists_of_map_eq_ok h
    exact ⟨hlimit, written, after, others, hmoves, hrest, rfl⟩

/-! ## All tokens -/

theorem exists_order {waiting tokens : List Token} {afterOperand : Bool}
    (hbalanced : balanced (depth waiting) tokens = true)
    (hlimited : limited afterOperand tokens = true) :
    ∃ ordered, order waiting afterOperand tokens = .ok ordered := by
  induction tokens generalizing waiting afterOperand with
  | nil => exact ⟨waiting, drain_of_depth (by simpa [balanced] using hbalanced)⟩
  | cons t rest ih =>
    rw [limited, Bool.and_eq_true] at hlimited
    obtain ⟨hfirst, hrest⟩ := hlimited
    rcases order_cons waiting afterOperand t rest with
      ⟨-, ⟨hlimit, hafter⟩ | ⟨hclose, hdepth⟩⟩ | ⟨-, written, after, hmoves, hcons⟩
    · simp [hlimit, hafter] at hfirst
    · simp [balanced_cons, hclose, isGroupOpen_of_isGroupClose hclose, hdepth] at hbalanced
    · obtain ⟨others, hothers⟩ := ih (hmoves.balanced hbalanced) hrest
      exact ⟨written ++ others, by rw [hcons, hothers]; rfl⟩

theorem limited_of_order {waiting tokens ordered : List Token} {afterOperand : Bool}
    (h : order waiting afterOperand tokens = .ok ordered) : limited afterOperand tokens = true := by
  induction tokens generalizing waiting afterOperand ordered with
  | nil => rfl
  | cons t rest ih =>
    obtain ⟨hlimit, _, _, others, -, hrest, -⟩ := order_cons_eq_ok h
    rw [limited, Bool.and_eq_true, ih hrest]
    cases hkind : t.isLimit with
    | false => exact ⟨rfl, rfl⟩
    | true => exact ⟨hlimit hkind, rfl⟩

theorem drain_eq_ok {waiting ordered : List Token} (h : drain waiting = .ok ordered) :
    ordered = waiting ∧ ∀ t ∈ waiting, t.isGroupOpen = false := by
  have hdepth := depth_of_drain h
  rw [drain_of_depth hdepth] at h
  exact ⟨(Except.ok.inj h).symm, by simpa [depth, List.countP_eq_zero] using hdepth⟩

theorem Moves.perm {t : Token} {waiting written after : List Token}
    (h : Moves t waiting written after) :
    (written ++ after.filter (! ·.isGroupOpen)).Perm
      (waiting.filter (! ·.isGroupOpen) ++ [t].filter (! ·.isBracket)) := by
  cases h with
  | behavior ht =>
    rw [List.filter_singleton, isBracket_of_isBehavior ht]
    exact List.perm_append_comm
  | groupOpen ht => simp [isBracket, ht]
  | groupClose opened ht hwritten hopened =>
    have hkept : written.filter (! ·.isGroupOpen) = written :=
      List.filter_eq_self.2 fun u hu => by simp [hwritten u hu]
    simp [isBracket, ht, hopened, hkept]
  | waits ht hname hwritten =>
    have hkept : written.filter (! ·.isGroupOpen) = written :=
      List.filter_eq_self.2 fun u hu => by simp [hwritten u hu]
    have hopen : t.isGroupOpen = false := (Bool.or_eq_false_iff.1 ht).1
    simp only [List.filter_append, hkept, List.filter_cons, hopen, ht, List.filter_nil,
      Bool.not_false, if_true, List.append_assoc]
    exact (List.perm_append_singleton _ _).symm.append_left written

theorem perm_of_order {waiting tokens ordered : List Token} {afterOperand : Bool}
    (h : order waiting afterOperand tokens = .ok ordered) :
    ordered.Perm (waiting.filter (! ·.isGroupOpen) ++ tokens.filter (! ·.isBracket)) := by
  induction tokens generalizing waiting afterOperand ordered with
  | nil =>
    obtain ⟨rfl, hopen⟩ := drain_eq_ok h
    rw [List.filter_eq_self.2 fun t ht => by simp [hopen t ht], List.filter_nil, List.append_nil]
  | cons t rest ih =>
    obtain ⟨-, written, after, others, hmoves, hrest, rfl⟩ := order_cons_eq_ok h
    calc written ++ others
      _ |>.Perm (written ++ (after.filter (! ·.isGroupOpen) ++ rest.filter (! ·.isBracket))) :=
        (ih hrest).append_left written
      _ |>.Perm _ := by
        rw [← List.append_assoc, ← List.singleton_append, List.filter_append, ← List.append_assoc]
        exact hmoves.perm.append_right _

theorem Moves.behaviors {t : Token} {waiting written after : List Token}
    (h : Moves t waiting written after) (hwaiting : ∀ u ∈ waiting, u.isBehavior = false) :
    written.filter isBehavior = [t].filter isBehavior ∧ ∀ u ∈ after, u.isBehavior = false := by
  have hnone (l : List Token) (hl : ∀ u ∈ l, u.isBehavior = false) : l.filter isBehavior = [] :=
    List.filter_eq_nil_iff.2 fun u hu => by simp [hl u hu]
  cases h with
  | behavior ht => exact ⟨rfl, hwaiting⟩
  | groupOpen ht =>
    have hname := isBehavior_of_isBracket (t := t) (by simp [isBracket, ht])
    exact ⟨(hnone [t] (by simpa using hname)).symm, by simpa [hname] using hwaiting⟩
  | groupClose opened ht hwritten hopened =>
    have hname := isBehavior_of_isBracket (t := t) (by simp [isBracket, ht])
    have hrest : ∀ u ∈ written, u.isBehavior = false := fun u hu => hwaiting u (by simp [hu])
    exact ⟨by rw [hnone written hrest, hnone [t] (by simpa using hname)],
      fun u hu => hwaiting u (by simp [hu])⟩
  | waits ht hname hwritten =>
    have hrest : ∀ u ∈ written, u.isBehavior = false := fun u hu => hwaiting u (by simp [hu])
    refine ⟨by rw [hnone written hrest, hnone [t] (by simpa using hname)], fun u hu => ?_⟩
    rcases List.mem_cons.1 hu with rfl | hu
    · exact hname
    · exact hwaiting u (by simp [hu])

theorem behaviors_of_order {waiting tokens ordered : List Token} {afterOperand : Bool}
    (hwaiting : ∀ t ∈ waiting, t.isBehavior = false)
    (h : order waiting afterOperand tokens = .ok ordered) :
    ordered.filter isBehavior = tokens.filter isBehavior := by
  induction tokens generalizing waiting afterOperand ordered with
  | nil =>
    obtain ⟨rfl, -⟩ := drain_eq_ok h
    exact List.filter_eq_nil_iff.2 fun t ht => by simp [hwaiting t ht]
  | cons t rest ih =>
    obtain ⟨-, written, after, others, hmoves, hrest, rfl⟩ := order_cons_eq_ok h
    obtain ⟨hwritten, hafter⟩ := hmoves.behaviors hwaiting
    rw [List.filter_append, hwritten, ih hafter hrest, ← List.filter_append, List.singleton_append]

/-- Tokens can be ordered exactly if their limits follow operands and their brackets match. Then
the same tokens come out, at the same positions and but for the brackets, and the behaviors among
them keep their order. -/
theorem toPostfix_rearranges (tokens : List Token) :
    ((∃ ordered, toPostfix tokens = .ok ordered) ↔ LimitsFollow tokens ∧ Balanced tokens) ∧
      ∀ ordered, toPostfix tokens = .ok ordered →
        ordered.Perm (tokens.filter (! ·.isBracket)) ∧ (∀ t ∈ ordered, t.isBracket = false) ∧
          ordered.filter isBehavior = tokens.filter isBehavior := by
  refine ⟨⟨?_, ?_⟩, ?_⟩
  · rintro ⟨ordered, h⟩
    exact ⟨(limited_iff_limitsFollow tokens).1 (limited_of_order h),
      (balanced_iff_balanced tokens).1 (balanced_of_order h)⟩
  · rintro ⟨hfollow, hbalanced⟩
    exact exists_order ((balanced_iff_balanced tokens).2 hbalanced)
      ((limited_iff_limitsFollow tokens).2 hfollow)
  · intro ordered h
    have hperm := perm_of_order h
    rw [List.filter_nil, List.nil_append] at hperm
    refine ⟨hperm, fun t ht => ?_, behaviors_of_order (by simp) h⟩
    simpa using (List.mem_filter.1 (hperm.mem_iff.1 ht)).2

end TimedPattern.Token
