-- The rules that the nodes of a tree come from.
namespace ApexSyntax

inductive Rule where
  -- units, types and members
  | compilationUnit | triggerUnit | anonymousUnit | typeDeclaration | classDeclaration
  | interfaceDeclaration | enumDeclaration | classBody | classBodyDeclaration
  | interfaceBody | interfaceMethodDeclaration | modifier | annotationUse | elementValue
  | methodDeclaration | constructorDeclaration | fieldDeclaration | propertyDeclaration
  | propertyAccessor | formalParameters | formalParameter | variableDeclarator | typeRef
  | typeArguments | qualifiedName | triggerCase | triggerBlock | triggerBlockMember
  | anonymousBlockMember
  -- statements
  | block | statement | localVariableDeclaration | ifStatement | switchStatement
  | whenControl | whenValue | whenLiteral | forStatement | forControl | whileStatement
  | doWhileStatement | tryStatement | catchClause | finallyBlock | returnStatement
  | throwStatement | breakStatement | continueStatement | dmlStatement | accessLevel
  | runAsStatement | expressionStatement
  -- expressions
  | expression | parExpression | primaryExpression | literal | methodCall | arguments
  | dotExpression | arrayExpression | postOpExpression | preOpExpression | negExpression
  | castExpression | newExpression | creator | arrayInitializer | mapInitializer
  | arth1Expression | arth2Expression | bitExpression | cmpExpression | instanceOfExpression
  | equalityExpression | bitAndExpression | bitNotExpression | bitOrExpression
  | logAndExpression | logOrExpression | coalExpression | condExpression | assignExpression
  -- queries
  | soqlLiteral | soslLiteral | query | selectList | selectEntry | subQuery | soqlFunction
  | fieldName | fromClause | whereClause | logicalExpression | fieldExpression | soqlValue
  | boundExpression | withClause | groupByClause | orderByClause | limitClause
  | offsetClause | forClauses | soslQuery
  deriving DecidableEq, Repr

/-- The name of a rule in a written tree. -/
def Rule.name : Rule → String
  | .compilationUnit => "CompilationUnit"
  | .triggerUnit => "TriggerUnit"
  | .anonymousUnit => "AnonymousUnit"
  | .typeDeclaration => "TypeDeclaration"
  | .classDeclaration => "ClassDeclaration"
  | .interfaceDeclaration => "InterfaceDeclaration"
  | .enumDeclaration => "EnumDeclaration"
  | .classBody => "ClassBody"
  | .classBodyDeclaration => "ClassBodyDeclaration"
  | .interfaceBody => "InterfaceBody"
  | .interfaceMethodDeclaration => "InterfaceMethodDeclaration"
  | .modifier => "Modifier"
  | .annotationUse => "Annotation"
  | .elementValue => "ElementValue"
  | .methodDeclaration => "MethodDeclaration"
  | .constructorDeclaration => "ConstructorDeclaration"
  | .fieldDeclaration => "FieldDeclaration"
  | .propertyDeclaration => "PropertyDeclaration"
  | .propertyAccessor => "PropertyAccessor"
  | .formalParameters => "FormalParameters"
  | .formalParameter => "FormalParameter"
  | .variableDeclarator => "VariableDeclarator"
  | .typeRef => "TypeRef"
  | .typeArguments => "TypeArguments"
  | .qualifiedName => "QualifiedName"
  | .triggerCase => "TriggerCase"
  | .triggerBlock => "TriggerBlock"
  | .triggerBlockMember => "TriggerBlockMember"
  | .anonymousBlockMember => "AnonymousBlockMember"
  | .block => "Block"
  | .statement => "Statement"
  | .localVariableDeclaration => "LocalVariableDeclaration"
  | .ifStatement => "IfStatement"
  | .switchStatement => "SwitchStatement"
  | .whenControl => "WhenControl"
  | .whenValue => "WhenValue"
  | .whenLiteral => "WhenLiteral"
  | .forStatement => "ForStatement"
  | .forControl => "ForControl"
  | .whileStatement => "WhileStatement"
  | .doWhileStatement => "DoWhileStatement"
  | .tryStatement => "TryStatement"
  | .catchClause => "CatchClause"
  | .finallyBlock => "FinallyBlock"
  | .returnStatement => "ReturnStatement"
  | .throwStatement => "ThrowStatement"
  | .breakStatement => "BreakStatement"
  | .continueStatement => "ContinueStatement"
  | .dmlStatement => "DmlStatement"
  | .accessLevel => "AccessLevel"
  | .runAsStatement => "RunAsStatement"
  | .expressionStatement => "ExpressionStatement"
  | .expression => "Expression"
  | .parExpression => "ParExpression"
  | .primaryExpression => "PrimaryExpression"
  | .literal => "Literal"
  | .methodCall => "MethodCall"
  | .arguments => "Arguments"
  | .dotExpression => "DotExpression"
  | .arrayExpression => "ArrayExpression"
  | .postOpExpression => "PostOpExpression"
  | .preOpExpression => "PreOpExpression"
  | .negExpression => "NegExpression"
  | .castExpression => "CastExpression"
  | .newExpression => "NewExpression"
  | .creator => "Creator"
  | .arrayInitializer => "ArrayInitializer"
  | .mapInitializer => "MapInitializer"
  | .arth1Expression => "Arth1Expression"
  | .arth2Expression => "Arth2Expression"
  | .bitExpression => "BitExpression"
  | .cmpExpression => "CmpExpression"
  | .instanceOfExpression => "InstanceOfExpression"
  | .equalityExpression => "EqualityExpression"
  | .bitAndExpression => "BitAndExpression"
  | .bitNotExpression => "BitNotExpression"
  | .bitOrExpression => "BitOrExpression"
  | .logAndExpression => "LogAndExpression"
  | .logOrExpression => "LogOrExpression"
  | .coalExpression => "CoalExpression"
  | .condExpression => "CondExpression"
  | .assignExpression => "AssignExpression"
  | .soqlLiteral => "SoqlLiteral"
  | .soslLiteral => "SoslLiteral"
  | .query => "Query"
  | .selectList => "SelectList"
  | .selectEntry => "SelectEntry"
  | .subQuery => "SubQuery"
  | .soqlFunction => "SoqlFunction"
  | .fieldName => "FieldName"
  | .fromClause => "FromClause"
  | .whereClause => "WhereClause"
  | .logicalExpression => "LogicalExpression"
  | .fieldExpression => "FieldExpression"
  | .soqlValue => "SoqlValue"
  | .boundExpression => "BoundExpression"
  | .withClause => "WithClause"
  | .groupByClause => "GroupByClause"
  | .orderByClause => "OrderByClause"
  | .limitClause => "LimitClause"
  | .offsetClause => "OffsetClause"
  | .forClauses => "ForClauses"
  | .soslQuery => "SoslQuery"

/-- All rules, in the order of their declaration. -/
def Rule.all : List Rule := [
  .compilationUnit, .triggerUnit, .anonymousUnit, .typeDeclaration, .classDeclaration,
  .interfaceDeclaration, .enumDeclaration, .classBody, .classBodyDeclaration, .interfaceBody,
  .interfaceMethodDeclaration, .modifier, .annotationUse, .elementValue, .methodDeclaration,
  .constructorDeclaration, .fieldDeclaration, .propertyDeclaration, .propertyAccessor,
  .formalParameters, .formalParameter, .variableDeclarator, .typeRef, .typeArguments,
  .qualifiedName, .triggerCase, .triggerBlock, .triggerBlockMember, .anonymousBlockMember,
  .block, .statement, .localVariableDeclaration, .ifStatement, .switchStatement, .whenControl,
  .whenValue, .whenLiteral, .forStatement, .forControl, .whileStatement, .doWhileStatement,
  .tryStatement, .catchClause, .finallyBlock, .returnStatement, .throwStatement,
  .breakStatement, .continueStatement, .dmlStatement, .accessLevel, .runAsStatement,
  .expressionStatement, .expression, .parExpression, .primaryExpression, .literal, .methodCall,
  .arguments, .dotExpression, .arrayExpression, .postOpExpression, .preOpExpression,
  .negExpression, .castExpression, .newExpression, .creator, .arrayInitializer,
  .mapInitializer, .arth1Expression, .arth2Expression, .bitExpression, .cmpExpression,
  .instanceOfExpression, .equalityExpression, .bitAndExpression, .bitNotExpression,
  .bitOrExpression, .logAndExpression, .logOrExpression, .coalExpression, .condExpression,
  .assignExpression, .soqlLiteral, .soslLiteral, .query, .selectList, .selectEntry, .subQuery,
  .soqlFunction, .fieldName, .fromClause, .whereClause, .logicalExpression, .fieldExpression,
  .soqlValue, .boundExpression, .withClause, .groupByClause, .orderByClause, .limitClause,
  .offsetClause, .forClauses, .soslQuery]

/-- The rule with a name. -/
def Rule.ofName? (name : String) : Option Rule := Rule.all.find? fun r => r.name == name

end ApexSyntax
