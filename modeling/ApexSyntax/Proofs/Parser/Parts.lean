-- The steps inside of a primary expression, case by case. They are told apart here once, and
-- what holds of all of them follows from what holds of each.
import ApexSyntax.Grammar.Expressions

namespace ApexSyntax

/-- What the steps inside of a primary expression may be, and what comes next then. -/
theorem primarySteps_cases_ahead {P : List Step → Prop} (v : Lookahead)
    (call : (∃ k, v.atKeyword k = true) ∨ v.isTypeName 0 = true → P callSteps)
    (word : (∃ k, v.atKeyword k = true) ∨ v.isTypeName 0 = true → P [.take 1])
    (literal : P [.expr .literal])
    (group : v.atMark .lParen = true → P [.take 1, .expr .expression, .expect (.mark .rParen)])
    (creation : v.atKeyword .newKw = true →
      P [.start .newExpression, .take 1, .expr .creator, .finish])
    (query : v.atMark .lBrack = true → (v.word 1 == "select") = true →
      P [.start .soqlLiteral, .take 1, .soql .query, .expect (.mark .rBrack), .finish])
    (search : v.atMark .lBrack = true → (v.word 1 == "find") = true →
      P [.start .soslLiteral, .take 1, .soql .search, .expect (.mark .rBrack), .finish])
    (type : P [.typ .type]) (none : P [.complain .noAlternative]) : P (primarySteps v) := by
  have hkeyword : (v.atKeyword .thisKw || v.atKeyword .superKw) = true →
      ∃ k, v.atKeyword k = true := fun h =>
    (Bool.or_eq_true_iff.1 h).elim (⟨_, ·⟩) (⟨_, ·⟩)
  have hname : v.isTypeName 0 = true → ∀ c : Bool,
      P (if v.kind 1 == .mark .lParen then callSteps
        else if c then [.typ .type] else [.take 1]) := fun h _ =>
    iteInduction (fun _ => call (.inr h)) fun _ =>
      iteInduction (fun _ => type) fun _ => word (.inr h)
  unfold primarySteps
  refine iteInduction (fun h => ?_) fun _ => ?_
  · exact iteInduction (fun _ => call (.inl (hkeyword h))) fun _ => word (.inl (hkeyword h))
  refine iteInduction (fun _ => literal) fun _ => ?_
  refine iteInduction group fun _ => ?_
  refine iteInduction creation fun _ => ?_
  refine iteInduction (fun h => ?_) fun _ => ?_
  · exact query (Bool.and_eq_true_iff.1 h).1 (Bool.and_eq_true_iff.1 h).2
  refine iteInduction (fun h => ?_) fun _ => ?_
  · exact search (Bool.and_eq_true_iff.1 h).1 (Bool.and_eq_true_iff.1 h).2
  refine iteInduction (fun h => ?_) fun _ => ?_
  · exact word (.inl ⟨_, (Bool.and_eq_true_iff.1 h).1⟩)
  exact iteInduction (fun h => hname h _) fun _ => none

/-- What the steps inside of a primary expression may be. -/
theorem primarySteps_cases {P : List Step → Prop} (v : Lookahead) (call : P callSteps)
    (word : P [.take 1]) (literal : P [.expr .literal])
    (group : P [.take 1, .expr .expression, .expect (.mark .rParen)])
    (creation : P [.start .newExpression, .take 1, .expr .creator, .finish])
    (query : P [.start .soqlLiteral, .take 1, .soql .query, .expect (.mark .rBrack), .finish])
    (search : P [.start .soslLiteral, .take 1, .soql .search, .expect (.mark .rBrack), .finish])
    (type : P [.typ .type]) (none : P [.complain .noAlternative]) : P (primarySteps v) :=
  primarySteps_cases_ahead v (fun _ => call) (fun _ => word) literal (fun _ => group)
    (fun _ => creation) (fun _ _ => query) (fun _ _ => search) type none

end ApexSyntax
