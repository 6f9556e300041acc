-- No decision of the grammar looks at the text of a token: what is seen ahead in
-- the folded stream leads to the same steps.
import ApexSyntax.Grammar.Parser
import ApexSyntax.Proofs.Folding.Lexers

namespace ApexSyntax

/-! ## What is seen ahead -/

theorem TokenStream.nth_folded (s : TokenStream) (i : Nat) : s.folded.nth i = (s.nth i).folded := by
  have he : s.eof.folded = s.eof := by simp [Token.folded, Token.isEof]
  have hs : s.folded.nth i = (s.visible.map Token.folded).getD i s.eof := rfl
  rw [hs, nth]
  by_cases h : i < s.visible.size
  · simp [Array.getD, h]
  · simp [Array.getD, h, he]

namespace Lookahead

/-- The same place in the folded stream. -/
def folded (v : Lookahead) : Lookahead := ⟨v.stream.folded, v.position⟩

variable (v : Lookahead)

@[simp] theorem position_folded : v.folded.position = v.position := rfl

theorem nth_folded (n : Nat) : v.folded.nth n = (v.nth n).folded :=
  v.stream.nth_folded _

@[simp] theorem kind_folded (n : Nat) : v.folded.kind n = v.kind n := by simp [kind, nth_folded]

@[simp] theorem word_folded (n : Nat) : v.folded.word n = v.word n := by simp [word, nth_folded]

@[simp] theorem isIdentifier_folded (n : Nat) : v.folded.isIdentifier n = v.isIdentifier n := by
  simp [isIdentifier, nth_folded]

@[simp] theorem isWord_folded (n : Nat) : v.folded.isWord n = v.isWord n := by
  simp [isWord, nth_folded]

@[simp] theorem isTypeName_folded (n : Nat) : v.folded.isTypeName n = v.isTypeName n := by
  simp [isTypeName, nth_folded, Token.isTypeName]

@[simp] theorem atMark_folded (m : Mark) : v.folded.atMark m = v.atMark m := by simp [atMark]

@[simp] theorem atKeyword_folded (k : Keyword) : v.folded.atKeyword k = v.atKeyword k := by
  simp [atKeyword]

@[simp] theorem atWord_folded (w : String) : v.folded.atWord w = v.atWord w := by simp [atWord]

@[simp] theorem atAnyWord_folded (ws : List String) : v.folded.atAnyWord ws = v.atAnyWord ws := by
  simp [atAnyWord]

@[simp] theorem left_folded : v.folded.left = v.left := by
  have h : v.folded.stream.visible = v.stream.visible.map Token.folded := rfl
  simp [left, h]

@[simp] theorem touches_folded (n : Nat) : v.folded.touches n = v.touches n := by
  simp [touches, nth_folded]

@[simp] theorem dimensionsEnd_folded (fuel n : Nat) :
    v.folded.dimensionsEnd fuel n = v.dimensionsEnd fuel n := by
  induction fuel generalizing n with
  | zero => rfl
  | succ fuel ih => simp only [dimensionsEnd, kind_folded, ih]

@[simp] theorem typeEndFrom_folded (fuel : Nat) (named : Bool) (depth n : Nat) :
    v.folded.typeEndFrom fuel named depth n = v.typeEndFrom fuel named depth n := by
  induction fuel generalizing named depth n with
  | zero => simp only [typeEndFrom]
  | succ fuel ih =>
    cases named with
    | false => simp only [typeEndFrom, isTypeName_folded, kind_folded, ih]
    | true =>
      cases depth <;>
        simp only [typeEndFrom, isTypeName_folded, kind_folded, dimensionsEnd_folded,
          left_folded, ih]

@[simp] theorem typeEnd?_folded (n : Nat) : v.folded.typeEnd? n = v.typeEnd? n := by
  simp only [typeEnd?, typeEndFrom_folded, left_folded]

@[simp] theorem modifierLength_folded (n : Nat) :
    v.folded.modifierLength n = v.modifierLength n := by
  simp only [modifierLength, kind_folded]

@[simp] theorem groupEnd_folded (fuel depth n : Nat) :
    v.folded.groupEnd fuel depth n = v.groupEnd fuel depth n := by
  induction fuel generalizing depth n with
  | zero => rfl
  | succ fuel ih => simp only [groupEnd, kind_folded, ih]

@[simp] theorem dottedNameEnd_folded (fuel n : Nat) :
    v.folded.dottedNameEnd fuel n = v.dottedNameEnd fuel n := by
  induction fuel generalizing n with
  | zero => rfl
  | succ fuel ih => simp only [dottedNameEnd, isWord_folded, kind_folded, ih]

@[simp] theorem annotationEnd_folded (n : Nat) :
    v.folded.annotationEnd n = v.annotationEnd n := by
  simp only [annotationEnd, dottedNameEnd_folded, groupEnd_folded, kind_folded, left_folded]

@[simp] theorem declarationAhead_folded (n : Nat) :
    v.folded.declarationAhead n = v.declarationAhead n := by
  simp only [declarationAhead, typeEnd?_folded, isIdentifier_folded, kind_folded]

@[simp] theorem memberAhead_folded : v.folded.memberAhead = v.memberAhead := by
  have h : ∀ fuel modified n,
      v.folded.memberAheadFrom fuel modified n = v.memberAheadFrom fuel modified n := by
    intro fuel
    induction fuel with
    | zero => intro modified n; simp only [memberAheadFrom, declarationAhead_folded]
    | succ fuel ih =>
      intro modified n
      simp only [memberAheadFrom, kind_folded, annotationEnd_folded, modifierLength_folded,
        declarationAhead_folded, ih]
  simp only [memberAhead, left_folded, h]

@[simp] theorem typedNameAhead_folded (n : Nat) (follows : Kind → Bool) :
    v.folded.typedNameAhead n follows = v.typedNameAhead n follows := by
  simp only [typedNameAhead, typeEnd?_folded, isIdentifier_folded, kind_folded]

@[simp] theorem localVariableAhead_folded :
    v.folded.localVariableAhead = v.localVariableAhead := by
  simp only [localVariableAhead, atKeyword_folded, typedNameAhead_folded]

@[simp] theorem eachLoopAhead_folded : v.folded.eachLoopAhead = v.eachLoopAhead := by
  simp only [eachLoopAhead, atKeyword_folded, typedNameAhead_folded]

@[simp] theorem castAhead_folded : v.folded.castAhead = v.castAhead := by
  simp only [castAhead, typeEnd?_folded, kind_folded]

@[simp] theorem classReferenceAhead_folded :
    v.folded.classReferenceAhead = v.classReferenceAhead := by
  simp only [classReferenceAhead, typeEnd?_folded, kind_folded, word_folded]

@[simp] theorem aliasAhead_folded : v.folded.aliasAhead = v.aliasAhead := by
  simp only [aliasAhead, isIdentifier_folded, word_folded]

@[simp] theorem doubled_folded (m : Mark) : v.folded.doubled m = v.doubled m := by
  simp [doubled]

@[simp] theorem comparisonAhead_folded : v.folded.comparisonAhead = v.comparisonAhead := by
  simp [comparisonAhead]

@[simp] theorem operatorAhead_folded (level : Nat) :
    v.folded.operatorAhead level = v.operatorAhead level := by
  simp only [operatorAhead, doubled_folded, comparisonAhead_folded, atMark_folded,
    atKeyword_folded, kind_folded, touches_folded]

end Lookahead

theorem Expected.accepts_folded (e : Expected) (t : Token) : e.accepts t.folded = e.accepts t := by
  cases e <;> simp [accepts]

/-! ## Steps of the parts -/

section Parts

variable (v : Lookahead)

theorem TypePart.expand_folded (p : TypePart) : p.expand v.folded = p.expand v := by
  cases p <;> simp [expand]

theorem ExprPart.expand_folded (p : ExprPart) (mark : Nat) :
    p.expand v.folded mark = p.expand v mark := by
  cases p <;> simp [expand, unarySteps, primarySteps]

theorem QueryPart.expand_folded (p : QueryPart) : p.expand v.folded = p.expand v := by
  cases p <;> simp [expand, clause, selectEntrySteps, valueSteps]

theorem StmtPart.expand_folded (p : StmtPart) : p.expand v.folded = p.expand v := by
  cases p <;> simp [expand, untilBrace, statementSteps, dmlSteps, loopControlSteps, whenValueSteps]

theorem DeclPart.expand_folded (p : DeclPart) : p.expand v.folded = p.expand v := by
  cases p <;>
    simp [expand, untilBrace, memberSteps, classMemberSteps, annotationValueSteps]

end Parts

end ApexSyntax
