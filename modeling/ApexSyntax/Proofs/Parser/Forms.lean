-- What the parts of the grammar are replaced by. Every part either reads a token
-- first, or is replaced by lighter steps, or is a list that takes one more turn.
-- The laws about all parts rest on these forms and look at no part again.
import ApexSyntax.Proofs.Parser.Runs

namespace ApexSyntax

/-! ## Weights -/

def TypePart.weight : TypePart → Nat
  | list => 12
  | type => 10
  | name => 5
  | _ => 1

def ExprPart.weight : ExprPart → Nat
  | creator => 65
  | creatorForm => 56
  | arguments => 55
  | initializerValues _ => 51
  | arraySize => 47
  | argumentList => 46
  | list => 45
  | expression => 43
  | conditional => 41
  | binary level => 17 + 2 * (binaryLevels - level)
  | unary => 16
  | operand => 15
  | primary => 13
  | initializerRest _ => 7
  | literal | member => 4
  | _ => 1

def QueryPart.weight : QueryPart → Nat
  | valueList => 51
  | query => 50
  | condition => 24
  | conditionOperand => 19
  | comparison => 18
  | category => 16
  | selectEntry => 13
  | search => 12
  | orderEntry => 11
  | source | functionArguments => 10
  | fieldList => 9
  | function => 8
  | fieldName => 7
  | value | searchTerm => 5
  | typeCases | accessFilter | count | usage | searchBraces => 4
  | comparisonOperator | nullsPlace => 2
  | _ => 1

def StmtPart.weight : StmtPart → Nat
  | loopControl => 145
  | whenClauses => 102
  | blockStatements | moreWhenClauses => 100
  | loopBody | parenthesized => 52
  | statement => 51
  | loopStart | loopUpdate | runAsUsers => 46
  | loopCondition | returnValue => 44
  | localVariables => 23
  | whenValue => 10
  | upsertKey => 8
  | block | whenLiteral => 6
  | handlers | whenAtom => 2
  | _ => 1

def DeclPart.weight : DeclPart → Nat
  | anonymousUnit => 104
  | anonymousMembers | triggerMembers | classMembers | interfaceMembers | accessors
  | annotationValues | elementValues => 100
  | blockMember _ | classMember => 57
  | member => 53
  | method => 52
  | interfaceMethod => 49
  | elementValue => 44
  | triggerUnit => 39
  | parameters => 28
  | field => 25
  | parameterList | property => 19
  | parameter => 17
  | compilationUnit => 13
  | resultType => 11
  | .variables => 9
  | enumConstants => 8
  | triggerCase | qualifiedName | .variable | methodBody | accessorBody => 7
  | declaration | classBody | triggerBlock | accessor => 6
  | triggerMoment | triggerEvent | declaredType | accessorKind => 2
  | _ => 1

/-- How many steps a step takes at most before it reads a token. -/
def Step.weight : Step → Nat
  | expect _ | expectThen _ _ => 3
  | endOfText => 4
  | skipRest => 2
  | typ p => p.weight
  | expr p => p.weight
  | soql p => p.weight
  | stmt p => p.weight
  | decl p => p.weight
  | _ => 1

/-- The weight of some steps together. -/
def total : List Step → Nat
  | [] => 0
  | s :: ss => s.weight + total ss

theorem weight_le_total {s : Step} {ss : List Step} (h : s ∈ ss) : s.weight ≤ total ss := by
  induction ss with
  | nil => cases h
  | cons t ss ih =>
    rw [total]
    rcases List.mem_cons.1 h with rfl | h
    · omega
    · have := ih h
      omega

/-- The lists that take a turn for each item. -/
def Step.isLoop : Step → Bool
  | stmt .blockStatements | stmt .whenClauses | stmt .moreWhenClauses => true
  | decl .anonymousUnit | decl .anonymousMembers | decl .triggerMembers | decl .classMembers
  | decl .interfaceMembers | decl .accessors | decl .annotationValues
  | decl .elementValues => true
  | _ => false

/-- A token that is read pays for 1024 steps. This many of them are left over
once a step has read one; a list spends all of them on its next turn. -/
def Step.refund (s : Step) : Nat := if s.isLoop then 0 else 64

theorem weight_le (s : Step) : s.weight ≤ 145 := by
  cases s with
  | expr p =>
    cases p with
    | binary level =>
      have : binaryLevels - level ≤ 11 := Nat.sub_le _ _
      simp only [Step.weight, ExprPart.weight]
      omega
    | _ => simp [Step.weight, ExprPart.weight]
  | typ p => cases p <;> simp [Step.weight, TypePart.weight]
  | soql p => cases p <;> simp [Step.weight, QueryPart.weight]
  | stmt p => cases p <;> simp [Step.weight, StmtPart.weight]
  | decl p => cases p <;> simp [Step.weight, DeclPart.weight]
  | _ => simp [Step.weight]

theorem weight_pos (s : Step) : 1 ≤ s.weight := by
  cases s with
  | expr p =>
    cases p <;> simp only [Step.weight, ExprPart.weight] <;> omega
  | typ p => cases p <;> simp [Step.weight, TypePart.weight]
  | soql p => cases p <;> simp [Step.weight, QueryPart.weight]
  | stmt p => cases p <;> simp [Step.weight, StmtPart.weight]
  | decl p => cases p <;> simp [Step.weight, DeclPart.weight]
  | _ => simp [Step.weight]

theorem refund_le (s : Step) : s.refund ≤ 64 := by
  unfold Step.refund
  split <;> omega

/-! ## Kinds of steps -/

/-- A token that the end of the text is not. -/
def Expected.isReal : Expected → Bool
  | kind k => k != .eof
  | spelled w => w != ""
  | _ => true

namespace Step

/-- The step matches no end of the text, and skips nothing by itself. -/
def plain : Step → Bool
  | start _ | wrap _ _ | finish | takeIf _ | complain _ => true
  | expect e => e.isReal
  | expectThen e next => e.isReal && next.plain
  | typ _ | expr _ | soql _ | stmt _ => true
  | decl p => p != .compilationUnit && p != .triggerUnit && p != .anonymousUnit
  | _ => false

/-- The step reads or reports something wherever it is performed. -/
def essential : Step → Bool
  | expect _ | expectThen _ _ | complain _ => true
  | typ .type | typ .name => true
  | expr .expression | expr .conditional | expr (.binary _) | expr .unary | expr .operand
  | expr .primary | expr .literal => true
  | stmt .block | stmt .statement | stmt .localVariables => true
  | decl (.blockMember _) | decl .elementValue | decl .classMember | decl .member
  | decl .method | decl .resultType | decl .field | decl .property | decl .interfaceMethod
  | decl .accessor | decl .accessorKind => true
  | _ => false

end Step

/-! ## Forms -/

/-- What stands behind the first token of some steps, when they read one first. -/
def behindFirst : List Step → Option (List Step)
  | .start _ :: ss | .wrap _ _ :: ss => behindFirst ss
  | .take (_ + 1) :: ss => some ss
  | _ => none

/-- Some steps are lighter than the part that they replace, leave as much over,
and are essential when it is. -/
def lighter (x : Step) (ss : List Step) : Bool :=
  decide (total ss < x.weight) && ss.all (fun s => s.plain && decide (x.refund ≤ s.refund)) &&
    (!x.essential || ss.any Step.essential)

/-- What a part may be replaced by, with some tokens ahead. -/
inductive Form (v : Lookahead) (x : Step) : List Step → Prop
  | calm {ss : List Step} : lighter x ss = true → Form v x ss
  | reads {ss rest : List Step} :
      v.kind 0 ≠ .eof → behindFirst ss = some rest → total ss ≤ 900 →
      (∀ s ∈ rest, s.plain ∨ s = .progress v.position) → Form v x ss
  /-- One more turn of a list: an item, and the list again. -/
  | turn (items : List Step) :
      v.kind 0 ≠ .eof → x.weight = 100 → x.isLoop = true → x.essential = false →
      total items ≤ 62 → items.all (fun s => s.plain && !s.isLoop) = true →
      items.any Step.essential = true → Form v x (items ++ [.progress v.position, x])
  /-- A statement that nothing can start: a complaint, and the token is skipped. -/
  | refused {r : Rule} {c : Complaint} :
      4 < x.weight → Form v x [.start r, .complain c, .skip, .finish]

theorem Form.reading {v : Lookahead} {x : Step} {ss rest : List Step} (hv : v.kind 0 ≠ .eof)
    (h : behindFirst ss = some rest) (ht : decide (total ss ≤ 900) = true)
    (hp : rest.all Step.plain = true) : Form v x ss :=
  .reads hv h (of_decide_eq_true ht) fun _ hs => .inl (List.all_eq_true.1 hp _ hs)

/-! ## At the end of the text -/

namespace Lookahead

variable {v : Lookahead}

theorem nth_of_eof (hv : v.kind 0 = .eof) (n : Nat) : v.nth n = v.stream.eof := by
  have h : v.stream.visible.size ≤ v.position + 0 :=
    (v.stream.kind_nth_eq_eof_iff _).1 hv
  exact TokenStream.nth_of_le (by omega)

theorem kind_of_eof (hv : v.kind 0 = .eof) (n : Nat) : v.kind n = .eof := by
  simp [kind, nth_of_eof hv]

theorem word_of_eof (hv : v.kind 0 = .eof) (n : Nat) : v.word n = "" := by
  simp [word, nth_of_eof hv]

theorem isWord_of_eof (hv : v.kind 0 = .eof) (n : Nat) : v.isWord n = false := by
  simp [isWord, nth_of_eof hv, Token.isWord]

theorem isIdentifier_of_eof (hv : v.kind 0 = .eof) (n : Nat) : v.isIdentifier n = false := by
  simp [isIdentifier, nth_of_eof hv, Token.isIdentifier, Kind.isSoftKeyword]

theorem isTypeName_of_eof (hv : v.kind 0 = .eof) (n : Nat) : v.isTypeName n = false := by
  simp [isTypeName, nth_of_eof hv, Token.isTypeName, Token.isIdentifier, Kind.isSoftKeyword]

theorem atMark_of_eof (hv : v.kind 0 = .eof) (m : Mark) : v.atMark m = false := by
  simp [atMark, hv]

theorem atKeyword_of_eof (hv : v.kind 0 = .eof) (k : Keyword) : v.atKeyword k = false := by
  simp [atKeyword, hv]

theorem typeEnd?_of_eof (hv : v.kind 0 = .eof) (n : Nat) : v.typeEnd? n = none := by
  simp [typeEnd?, typeEndFrom, isTypeName_of_eof hv]

theorem modifierLength_of_eof (hv : v.kind 0 = .eof) (n : Nat) : v.modifierLength n = 0 := by
  simp [modifierLength, kind_of_eof hv, Kind.isModifier]

theorem typedNameAhead_of_eof (hv : v.kind 0 = .eof) (n : Nat) (follows : Kind → Bool) :
    v.typedNameAhead n follows = false := by
  simp [typedNameAhead, typeEnd?_of_eof hv]

theorem operatorAhead_of_eof (hv : v.kind 0 = .eof) (level : Nat) :
    v.operatorAhead level = none := by
  unfold operatorAhead
  split <;> simp [doubled, comparisonAhead, atMark_of_eof hv, atKeyword_of_eof hv]

theorem operatorAhead_pos {level : Nat} {r : Rule} {n : Nat}
    (h : v.operatorAhead level = some (r, n)) : 0 < n := by
  unfold operatorAhead at h
  grind

end Lookahead

/-- The end of the text is no token that the grammar calls for. -/
theorem Expected.kind_ne_eof {e : Expected} {v : Lookahead} (he : e.isReal)
    (h : e.accepts v.current = true) : v.kind 0 ≠ .eof := by
  intro hv
  have hc : v.current = v.stream.eof := Lookahead.nth_of_eof hv 0
  cases e <;> simp_all [accepts, isReal, Token.isIdentifier, Kind.isSoftKeyword, Token.isWord]

/-! ## Forms of the parts -/

section Parts

variable {v : Lookahead}

theorem TypePart.form_of_eof (hv : v.kind 0 = .eof) (p : TypePart) :
    Form v (.typ p) (p.expand v) := by
  cases p <;>
    simp only [expand, Lookahead.atMark_of_eof hv, Lookahead.isTypeName_of_eof hv,
      Bool.false_and, Bool.false_eq_true, if_false] <;>
    exact .calm rfl

theorem TypePart.form (p : TypePart) : Form v (.typ p) (p.expand v) := by
  by_cases hv : v.kind 0 = .eof
  · exact p.form_of_eof hv
  · cases p <;> simp only [expand] <;> repeat' split
    all_goals first | exact .calm rfl | exact .reading hv rfl rfl rfl

/-- The next level is lighter, also behind the last operator level. -/
theorem form_binary (level mark : Nat) :
    Form v (.expr (.binary level)) (ExprPart.expand v mark (.binary level)) := by
  simp only [ExprPart.expand]
  split
  · rename_i hl
    refine .calm ?_
    have : total [.expr (.binary (level + 1)), .expr (.operators level mark)] <
        (Step.expr (.binary level)).weight := by
      simp only [total, Step.weight, ExprPart.weight, binaryLevels] at hl ⊢
      omega
    simp [lighter, this, Step.plain, Step.refund, Step.isLoop, Step.essential]
  · refine .calm ?_
    have : total [.expr .unary] < (Step.expr (.binary level)).weight := by
      simp only [total, Step.weight, ExprPart.weight]
      omega
    simp [lighter, this, Step.plain, Step.refund, Step.isLoop, Step.essential]

theorem form_operators (level mark m : Nat) :
    Form v (.expr (.operators level m)) (ExprPart.expand v mark (.operators level m)) := by
  simp only [ExprPart.expand]
  split
  · rename_i r n h
    have hv : v.kind 0 ≠ .eof := fun hv => by
      rw [Lookahead.operatorAhead_of_eof hv] at h; cases h
    obtain ⟨n, rfl⟩ := Nat.exists_eq_succ_of_ne_zero (Nat.ne_of_gt (Lookahead.operatorAhead_pos h))
    have hr : (rightOperand r level).weight ≤ 145 := weight_le _
    have hp : (rightOperand r level).plain = true := by
      unfold rightOperand; split <;> rfl
    refine .reads hv rfl ?_ ?_
    · change 1 + (1 + ((rightOperand r level).weight + (1 + (1 + 0)))) ≤ 900
      omega
    · simp [hp, Step.plain]
  · exact .calm rfl

theorem ExprPart.form_of_eof (hv : v.kind 0 = .eof) (p : ExprPart) (mark : Nat) :
    Form v (.expr p) (p.expand v mark) := by
  cases p with
  | binary level => exact form_binary level mark
  | operators level m => exact form_operators level mark m
  | _ =>
    simp only [expand, unarySteps, primarySteps, Lookahead.atMark_of_eof hv,
      Lookahead.atKeyword_of_eof hv, Lookahead.isTypeName_of_eof hv, Lookahead.isWord_of_eof hv,
      hv, Kind.isLiteral, Kind.isAssignment, Bool.false_or, Bool.false_and, Bool.false_eq_true,
      if_false]
    exact .calm rfl

theorem ExprPart.form (p : ExprPart) (mark : Nat) : Form v (.expr p) (p.expand v mark) := by
  by_cases hv : v.kind 0 = .eof
  · exact p.form_of_eof hv mark
  · cases p with
    | binary level => exact form_binary level mark
    | operators level m => exact form_operators level mark m
    | primary =>
      refine primarySteps_cases (P := fun ss => Form v (.expr .primary)
        (Step.start .primaryExpression :: ss ++ [Step.finish])) v ?_ ?_ ?_ ?_ ?_ ?_ ?_ ?_ ?_
      all_goals first | exact .calm rfl | exact .reading hv rfl rfl rfl
    | _ =>
      simp only [expand, unarySteps]
      repeat' split
      all_goals first | exact .calm rfl | exact .reading hv rfl rfl rfl

theorem QueryPart.form_of_eof (hv : v.kind 0 = .eof) (p : QueryPart) :
    Form v (.soql p) (p.expand v) := by
  cases p <;>
    simp only [expand, clause, selectEntrySteps, valueSteps, Lookahead.aliasAhead,
      Lookahead.atAnyWord, Lookahead.atWord, Lookahead.word_of_eof hv, Lookahead.atMark_of_eof hv,
      String.reduceBEq, List.contains_cons, List.contains_nil, Bool.or_self,
      Lookahead.isIdentifier_of_eof hv, Lookahead.isWord_of_eof hv,
      hv, Kind.isLiteral, Kind.comparesFields, Bool.false_or, Bool.false_and, Bool.false_eq_true,
      if_false] <;>
    exact .calm rfl

theorem QueryPart.form (p : QueryPart) : Form v (.soql p) (p.expand v) := by
  by_cases hv : v.kind 0 = .eof
  · exact p.form_of_eof hv
  · cases p <;> simp only [expand, clause, selectEntrySteps, valueSteps] <;> repeat' split
    all_goals first | exact .calm rfl | exact .reading hv rfl rfl rfl

/-- A list up to a closing brace takes turns when its item fits into one. -/
theorem form_untilBrace {item again : Step} (hw : again.weight = 100) (hl : again.isLoop = true)
    (he : again.essential = false) (hp : again.plain = true)
    (ht : item.weight ≤ 62 ∧ item.plain = true ∧ item.isLoop = false ∧ item.essential = true) :
    Form v again (untilBrace v item again) := by
  unfold untilBrace
  split
  · have h3 : total [.expect (.mark .rBrace)] < again.weight := by rw [hw]; decide
    have h0 : again.refund = 0 := by simp [Step.refund, hl]
    exact .calm (by rw [lighter, he, h0, decide_eq_true h3]; rfl)
  · rename_i h
    have hv : v.kind 0 ≠ .eof := fun hv => by simp [hv] at h
    split
    · have h1 : total [.take 1, again] = 1 + (again.weight + 0) := rfl
      exact .reading hv rfl (by rw [h1, hw]; rfl) (by simp [hp])
    · exact .turn [item] hv hw hl he (by simpa [total] using ht.1) (by simp [ht])
        (by simp [ht])

theorem StmtPart.form_of_eof (hv : v.kind 0 = .eof) (p : StmtPart) :
    Form v (.stmt p) (p.expand v) := by
  cases p with
  | blockStatements => exact form_untilBrace rfl rfl rfl rfl ⟨by decide, rfl, rfl, rfl⟩
  | statement =>
    simp only [expand, statementSteps, hv, Lookahead.localVariableAhead,
      Lookahead.atKeyword_of_eof hv, Lookahead.typedNameAhead_of_eof hv,
      Lookahead.isIdentifier_of_eof hv, Kind.isDml, Kind.startsExpression, Kind.followsCast,
      Kind.isLiteral, reduceCtorEq, false_and, Bool.or_self, Bool.false_eq_true, if_false]
    exact .refused (by decide)
  | _ =>
    simp only [expand, loopControlSteps, whenValueSteps, Lookahead.eachLoopAhead,
      Lookahead.localVariableAhead, Lookahead.atWord, Lookahead.word_of_eof hv,
      String.reduceBEq,
      Lookahead.atMark_of_eof hv, Lookahead.atKeyword_of_eof hv,
      Lookahead.typedNameAhead_of_eof hv, Lookahead.isIdentifier_of_eof hv, hv, Kind.isLiteral,
      BEq.rfl, Bool.or_true, if_true,
      Bool.or_self, Bool.false_and, Bool.false_eq_true, if_false]
    exact .calm rfl

theorem StmtPart.form (p : StmtPart) : Form v (.stmt p) (p.expand v) := by
  by_cases hv : v.kind 0 = .eof
  · exact p.form_of_eof hv
  · cases p with
    | blockStatements => exact form_untilBrace rfl rfl rfl rfl ⟨by decide, rfl, rfl, rfl⟩
    | statement =>
      simp only [expand, statementSteps, dmlSteps]
      repeat' split
      all_goals first | exact .calm rfl | exact .reading hv rfl rfl rfl | exact .refused (by decide)
    | moreWhenClauses =>
      simp only [expand]
      split
      · exact .calm rfl
      · exact .turn [.start .whenControl, .expect (.keyword .whenKw), .stmt .whenValue,
          .stmt .block, .finish] hv rfl rfl rfl (by decide) rfl rfl
    | _ =>
      simp only [expand, loopControlSteps, whenValueSteps]
      repeat' split
      all_goals first | exact .calm rfl | exact .reading hv rfl rfl rfl

theorem DeclPart.form_of_eof (hv : v.kind 0 = .eof) (p : DeclPart) (hp : (Step.decl p).plain) :
    Form v (.decl p) (p.expand v) := by
  cases p with
  | compilationUnit | triggerUnit | anonymousUnit => cases hp
  | triggerMembers | classMembers | interfaceMembers =>
    exact form_untilBrace rfl rfl rfl rfl ⟨by decide, rfl, rfl, rfl⟩
  | blockMember r =>
    simp only [expand]
    split <;> exact .calm rfl
  | _ =>
    simp only [expand, memberSteps, classMemberSteps, Lookahead.modifierLength_of_eof hv,
      Lookahead.atMark_of_eof hv, Lookahead.atKeyword_of_eof hv, Lookahead.typeEnd?_of_eof hv,
      Lookahead.isIdentifier_of_eof hv, hv, Kind.isDml, BEq.rfl, Bool.or_true, if_true,
      Bool.or_self, Bool.false_and, Bool.false_eq_true, if_false]
    exact .calm rfl

theorem DeclPart.form (p : DeclPart) (hp : (Step.decl p).plain) :
    Form v (.decl p) (p.expand v) := by
  by_cases hv : v.kind 0 = .eof
  · exact p.form_of_eof hv hp
  · cases p with
    | compilationUnit | triggerUnit | anonymousUnit => cases hp
    | triggerMembers | classMembers | interfaceMembers =>
      exact form_untilBrace rfl rfl rfl rfl ⟨by decide, rfl, rfl, rfl⟩
    | annotationValues =>
      simp only [expand, annotationValueSteps]
      repeat' split
      · exact .calm rfl
      · exact .reads hv rfl (of_decide_eq_true rfl) (by simp [Step.plain])
      · exact .turn [.decl .elementValue, .takeIf .comma] hv rfl rfl rfl (by decide) rfl rfl
    | elementValues =>
      simp only [expand]
      split
      · exact .calm rfl
      · exact .turn [.decl .elementValue, .takeIf .comma] hv rfl rfl rfl (by decide) rfl rfl
    | accessors =>
      simp only [expand]
      split
      · exact .calm rfl
      · exact .turn [.decl .accessor] hv rfl rfl rfl (by decide) rfl rfl
    | anonymousMembers =>
      simp only [expand]
      repeat' split
      · exact .calm rfl
      · exact .reading hv rfl rfl rfl
      · exact .turn [.decl (.blockMember .anonymousBlockMember)] hv rfl rfl rfl (by decide) rfl rfl
    | _ =>
      simp only [expand, memberSteps, classMemberSteps]
      repeat' split
      all_goals first | exact .calm rfl | exact .reading hv rfl rfl rfl

end Parts

end ApexSyntax
