-- The parts of units, type declarations and members. What a member is gets
-- decided by its type and name: parentheses make a method, braces a property,
-- anything else a field.
import ApexSyntax.Grammar.Statements

namespace ApexSyntax

open Step

/-- The steps of an annotation. -/
def annotationSteps : List Step :=
  [start .annotationUse, take 1, decl .qualifiedName, decl .annotationArguments, finish]

/-- The steps of a class behind its modifiers. -/
def classSteps : List Step :=
  [start .classDeclaration, take 1, expect .identifier, decl .superclass, decl .interfaces,
    decl .classBody, finish]

/-- The steps of an interface behind its modifiers. -/
def interfaceSteps : List Step :=
  [start .interfaceDeclaration, take 1, expect .identifier, decl .superinterfaces,
    start .interfaceBody, expectThen (.mark .lBrace) (decl .interfaceMembers), finish, finish]

/-- The steps of an enumeration behind its modifiers. -/
def enumSteps : List Step :=
  [start .enumDeclaration, take 1, expect .identifier,
    expectThen (.mark .lBrace) (decl .enumConstants), finish]

/-- The steps of a constructor behind its modifiers. -/
def constructorSteps : List Step :=
  [start .constructorDeclaration, take 1, decl .parameters, stmt .block, finish]

/-- The steps of a member behind its modifiers. -/
def memberSteps (v : Lookahead) : List Step :=
  match v.kind 0 with
  | .keyword .classKw => classSteps
  | .keyword .interfaceKw => interfaceSteps
  | .keyword .enumKw => enumSteps
  | .keyword .voidKw => [decl .method]
  | _ =>
    if v.isIdentifier 0 && v.kind 1 == .mark .lParen then constructorSteps
    else
      match v.typeEnd? 0 with
      | none => [complain .noAlternative]
      | some n =>
        if !v.isIdentifier n then [decl .field]
        else if v.kind (n + 1) == .mark .lParen then [decl .method]
        else if v.kind (n + 1) == .mark .lBrace then [decl .property]
        else [decl .field]

/-- The steps inside of a member of a class. -/
def classMemberSteps (v : Lookahead) : List Step :=
  if v.atKeyword .staticKw && v.kind 1 == .mark .lBrace then [take 1, stmt .block]
  else if v.atMark .lBrace then [stmt .block]
  else [decl .modifiers, decl .member]

/-- One value of an annotation, with its name in front if it has one. -/
def annotationValueSteps (v : Lookahead) : List Step :=
  (if v.isWord 0 && v.kind 1 == .mark .assign then [take 2] else []) ++
    [decl .elementValue, takeIf .comma]

/-- The steps that a part of a declaration consists of. -/
def DeclPart.expand (v : Lookahead) : DeclPart → List Step
  | .compilationUnit => [start .compilationUnit, decl .declaration, endOfText, finish]
  | .triggerUnit =>
    [start .triggerUnit, expect (.keyword .triggerKw), expect .identifier,
      expect (.keyword .onKw), expect .identifier, expect (.mark .lParen),
      decl .triggerCase, decl .moreTriggerCases, expect (.mark .rParen), decl .triggerBlock,
      endOfText, finish]
  | .anonymousUnit => [start .anonymousUnit, decl .anonymousMembers, take 1, finish]
  | .anonymousMembers =>
    if v.kind 0 == .eof then []
    else if v.atMark .semi then [take 1, decl .anonymousMembers]
    else
      [decl (.blockMember .anonymousBlockMember), progress v.position, decl .anonymousMembers]
  | .triggerCase => [start .triggerCase, decl .triggerMoment, decl .triggerEvent, finish]
  | .moreTriggerCases =>
    if v.atMark .comma then [take 1, decl .triggerCase, decl .moreTriggerCases] else []
  | .triggerMoment =>
    if v.atKeyword .beforeKw || v.atKeyword .afterKw then [take 1]
    else [complain (.mismatch "\x7b'before', 'after'\x7d")]
  | .triggerEvent =>
    if (v.kind 0).isDml && !v.atKeyword .upsertKw then [take 1]
    else [complain (.mismatch "\x7b'insert', 'update', 'delete', 'undelete'\x7d")]
  | .triggerBlock =>
    [start .triggerBlock, expectThen (.mark .lBrace) (decl .triggerMembers), finish]
  | .triggerMembers =>
    untilBrace v (decl (.blockMember .triggerBlockMember)) (decl .triggerMembers)
  | .blockMember r =>
    start r :: (if v.memberAhead then [decl .modifiers, decl .member] else [stmt .statement]) ++
      [finish]
  | .declaration => [start .typeDeclaration, decl .modifiers, decl .declaredType, finish]
  | .declaredType =>
    match v.kind 0 with
    | .keyword .classKw => classSteps
    | .keyword .interfaceKw => interfaceSteps
    | .keyword .enumKw => enumSteps
    | _ => [complain (.mismatch "\x7b'class', 'interface', 'enum'\x7d")]
  | .modifiers =>
    if v.atMark .atSign then annotationSteps ++ [decl .modifiers]
    else
      match v.modifierLength 0 with
      | 0 => []
      | n + 1 => [start .modifier, take (n + 1), finish, decl .modifiers]
  | .annotationArguments => if v.atMark .lParen then [take 1, decl .annotationValues] else []
  | .annotationValues =>
    if v.atMark .rParen || v.kind 0 == .eof then [expect (.mark .rParen)]
    else annotationValueSteps v ++ [progress v.position, decl .annotationValues]
  | .elementValue =>
    if v.atMark .lBrace then [start .elementValue, take 1, decl .elementValues, finish]
    else [start .elementValue, expr .conditional, finish]
  | .elementValues =>
    if v.atMark .rBrace || v.kind 0 == .eof then [expect (.mark .rBrace)]
    else [decl .elementValue, takeIf .comma, progress v.position, decl .elementValues]
  | .qualifiedName => [start .qualifiedName, expect .word, soql .dottedWords, finish]
  | .superclass => if v.atKeyword .extendsKw then [take 1, typ .type] else []
  | .interfaces => if v.atKeyword .implementsKw then [take 1, typ .list] else []
  | .classBody => [start .classBody, expectThen (.mark .lBrace) (decl .classMembers), finish]
  | .classMembers => untilBrace v (decl .classMember) (decl .classMembers)
  | .classMember => start .classBodyDeclaration :: classMemberSteps v ++ [finish]
  | .member => memberSteps v
  | .method =>
    [start .methodDeclaration, decl .resultType, expect .identifier, decl .parameters,
      decl .methodBody, finish]
  | .resultType => if v.atKeyword .voidKw then [take 1] else [typ .type]
  | .methodBody => if v.atMark .lBrace then [stmt .block] else [expect (.mark .semi)]
  | .field => [start .fieldDeclaration, typ .type, decl .variables, expect (.mark .semi), finish]
  | .variables => [decl .variable, decl .moreVariables]
  | .variable => [start .variableDeclarator, expect .identifier, decl .variableValue, finish]
  | .variableValue => if v.atMark .assign then [take 1, expr .expression] else []
  | .moreVariables =>
    if v.atMark .comma then [take 1, decl .variable, decl .moreVariables] else []
  | .property =>
    [start .propertyDeclaration, typ .type, expect .identifier,
      expectThen (.mark .lBrace) (decl .accessors), finish]
  | .accessors =>
    if v.atMark .rBrace || v.kind 0 == .eof then [expect (.mark .rBrace)]
    else [decl .accessor, progress v.position, decl .accessors]
  | .accessor => [start .propertyAccessor, decl .modifiers, decl .accessorKind, finish]
  | .accessorKind =>
    if v.atKeyword .getKw || v.atKeyword .setKw then [take 1, decl .accessorBody]
    else [complain (.mismatch "\x7b'get', 'set'\x7d")]
  | .accessorBody => if v.atMark .semi then [take 1] else [stmt .block]
  | .parameters =>
    [start .formalParameters, expect (.mark .lParen), decl .parameterList,
      expect (.mark .rParen), finish]
  | .parameterList =>
    if v.atMark .rParen then [] else [decl .parameter, decl .moreParameters]
  | .parameter =>
    [start .formalParameter, decl .modifiers, typ .type, expect .identifier, finish]
  | .moreParameters =>
    if v.atMark .comma then [take 1, decl .parameter, decl .moreParameters] else []
  | .superinterfaces => if v.atKeyword .extendsKw then [take 1, typ .list] else []
  | .interfaceMembers => untilBrace v (decl .interfaceMethod) (decl .interfaceMembers)
  | .interfaceMethod =>
    [start .interfaceMethodDeclaration, decl .modifiers, decl .resultType, expect .identifier,
      decl .parameters, expect (.mark .semi), finish]
  | .enumConstants =>
    if v.isIdentifier 0 then
      [expect .identifier, decl .moreConstants, expect (.mark .rBrace)]
    else [expect (.mark .rBrace)]
  | .moreConstants =>
    if v.atMark .comma then [take 1, expect .identifier, decl .moreConstants] else []

end ApexSyntax
