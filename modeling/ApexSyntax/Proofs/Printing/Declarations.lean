-- Abstract type declarations and how they are printed. Names are plain identifiers, types may
-- be lists and maps as well, and bodies are blocks that are read by themselves.
import ApexSyntax.Proofs.Printing.Bodies
import ApexSyntax.Proofs.Printing.Queries

namespace ApexSyntax

/-- A keyword as it is printed. -/
def Piece.keyword (k : Keyword) : Piece := ⟨.keyword k, k.word, false⟩

namespace Printed

def keyword (k : Keyword) : Printed := flat [.keyword k]

def name (n : Name) : Printed := flat [.named n.word]

/-- Parts one behind the other, with nothing between them. -/
def row : List Printed → Printed
  | [] => nothing
  | x :: xs => x ++ row xs

end Printed

namespace Decl

open Printed

/-! ## Types -/

/-- A name that a type may have. -/
inductive TypeWord where
  | named (n : Name) | list | map

def TypeWord.piece : TypeWord → Piece
  | named n => .named n.word
  | list => .keyword .listKw
  | map => .keyword .mapKw

mutual

/-- Names joined by dots, and pairs of brackets behind them. -/
structure TypeRef where
  first : Segment
  more : List Segment
  brackets : Nat

/-- A name with its arguments, if it has any. -/
structure Segment where
  word : TypeWord
  args : List TypeRef

end

def bracketsPrinted : Nat → Printed
  | 0 => nothing
  | n + 1 => flat [.mark .lBrack, .mark .rBrack] ++ bracketsPrinted n

/-- The arguments of a name, between angles. -/
def argumentsPrinted : List Printed → Printed
  | [] => nothing
  | x :: xs => .node .typeArguments (join [mark .lt, list x xs, mark .gt])

mutual

def TypeRef.printed : TypeRef → Printed
  | ⟨first, more, n⟩ =>
    .node .typeRef (join [first.printed, Segment.dotted more, bracketsPrinted n])

def TypeRef.eachPrinted : List TypeRef → List Printed
  | [] => []
  | t :: ts => t.printed :: TypeRef.eachPrinted ts

def Segment.printed : Segment → Printed
  | ⟨w, args⟩ => join [flat [w.piece], argumentsPrinted (TypeRef.eachPrinted args)]

/-- More names, with a dot in front of each. -/
def Segment.dotted : List Segment → Printed
  | [] => nothing
  | s :: ss => join [mark .dot, s.printed, Segment.dotted ss]

end

/-- Types behind a keyword, with commas between them. -/
def typesPrinted (k : Keyword) : List TypeRef → Printed
  | [] => nothing
  | t :: ts => join [keyword k, list t.printed (ts.map TypeRef.printed)]

/-! ## Modifiers -/

/-- A keyword that is a modifier by itself. -/
structure ModifierWord where
  keyword : Keyword
  isModifier : (Kind.keyword keyword).isModifier = true
  alone : keyword ∉ [.withKw, .withoutKw, .inheritedKw]

/-- How a class shares records: `with`, `without` or `inherited sharing`. -/
inductive Sharing where
  | enforced | ignored | inherited
  deriving DecidableEq, Repr

def Sharing.keyword : Sharing → Keyword
  | enforced => .withKw
  | ignored => .withoutKw
  | inherited => .inheritedKw

/-- A modifier, or an annotation without arguments. -/
inductive Modifier where
  | word (w : ModifierWord)
  | sharing (s : Sharing)
  | annotated (first : Name) (more : List Name)

def Modifier.printed : Modifier → Printed
  | word w => .node .modifier (keyword w.keyword)
  | sharing s => .node .modifier (flat [.keyword s.keyword, .keyword .sharingKw])
  | annotated first more =>
    .node .annotationUse (join [mark .atSign,
      .node .qualifiedName (flat (.named first.word :: Soql.memberPieces more))])

def modifiersPrinted (ms : List Modifier) : Printed := row (ms.map Modifier.printed)

/-! ## Parts of members -/

/-- A value that a variable starts with. -/
inductive Initial where
  | literal (c : Constant)
  | name (n : Name)

def Initial.printed : Initial → Printed
  | literal c => .node .primaryExpression (.node .literal (flat [c.piece]))
  | name n => .node .primaryExpression (Printed.name n)

def initialPrinted : Option Initial → Printed
  | none => nothing
  | some i => join [mark .assign, i.printed]

structure Declarator where
  name : Name
  initial : Option Initial

def Declarator.printed (d : Declarator) : Printed :=
  .node .variableDeclarator (join [.name d.name, initialPrinted d.initial])

structure Parameter where
  modifiers : List Modifier
  type : TypeRef
  name : Name

def Parameter.printed (p : Parameter) : Printed :=
  .node .formalParameter (join [modifiersPrinted p.modifiers, p.type.printed, .name p.name])

def parametersPrinted (ps : List Parameter) : Printed :=
  .node .formalParameters
    (join [mark .lParen, Soql.arguments (ps.map Parameter.printed), mark .rParen])

/-- The type of a result, or none. -/
def resultPrinted : Option TypeRef → Printed
  | none => keyword .voidKw
  | some t => t.printed

/-- A body, or a semicolon in its place. -/
def bodyPrinted : Option Body → Printed
  | none => mark .semi
  | some b => b.printed

inductive AccessorKind where
  | get | set
  deriving DecidableEq, Repr

def AccessorKind.keyword : AccessorKind → Keyword
  | get => .getKw
  | set => .setKw

structure Accessor where
  modifiers : List Modifier
  kind : AccessorKind
  body : Option Body

def Accessor.printed (a : Accessor) : Printed :=
  .node .propertyAccessor
    (join [modifiersPrinted a.modifiers, keyword a.kind.keyword, bodyPrinted a.body])

/-- A member of an interface, or a stray semicolon. -/
inductive InterfaceMember where
  | stray
  | method (modifiers : List Modifier) (result : Option TypeRef) (name : Name)
      (parameters : List Parameter)

def InterfaceMember.printed : InterfaceMember → Printed
  | stray => mark .semi
  | method ms result n ps =>
    .node .interfaceMethodDeclaration (join [modifiersPrinted ms, resultPrinted result, .name n,
      parametersPrinted ps, mark .semi])

/-- The constants of an enumeration, with commas between them. -/
def constantsPrinted (ns : List Name) : Printed := Soql.arguments (ns.map Printed.name)

/-! ## Members and types -/

mutual

/-- A member of a class, or a stray semicolon. -/
inductive Member where
  | stray
  | initializer (isStatic : Bool) (body : Body)
  | field (modifiers : List Modifier) (type : TypeRef) (first : Declarator)
      (more : List Declarator)
  | method (modifiers : List Modifier) (result : Option TypeRef) (name : Name)
      (parameters : List Parameter) (body : Option Body)
  | creator (modifiers : List Modifier) (name : Name) (parameters : List Parameter)
      (body : Body)
  | property (modifiers : List Modifier) (type : TypeRef) (name : Name)
      (accessors : List Accessor)
  | nested (modifiers : List Modifier) (type : TypeDecl)

/-- A class, an interface or an enumeration behind its modifiers. -/
inductive TypeDecl where
  | ofClass (name : Name) (base : Option TypeRef) (interfaces : List TypeRef)
      (members : List Member)
  | ofInterface (name : Name) (bases : List TypeRef) (members : List InterfaceMember)
  | ofEnum (name : Name) (constants : List Name)

end

/-- The body of a class or an interface: its members between braces. -/
def bracedPrinted (rule : Rule) (members : List Printed) : Printed :=
  .node rule (join [mark .lBrace, row members, mark .rBrace])

mutual

def Member.printed : Member → Printed
  | .stray => mark .semi
  | .initializer true body =>
    .node .classBodyDeclaration (join [keyword .staticKw, body.printed])
  | .initializer false body => .node .classBodyDeclaration body.printed
  | .field ms type first more =>
    .node .classBodyDeclaration (join [modifiersPrinted ms,
      .node .fieldDeclaration (join [type.printed,
        list first.printed (more.map Declarator.printed), mark .semi])])
  | .method ms result n ps body =>
    .node .classBodyDeclaration (join [modifiersPrinted ms,
      .node .methodDeclaration (join [resultPrinted result, .name n, parametersPrinted ps,
        bodyPrinted body])])
  | .creator ms n ps body =>
    .node .classBodyDeclaration (join [modifiersPrinted ms,
      .node .constructorDeclaration (join [.name n, parametersPrinted ps, body.printed])])
  | .property ms type n as =>
    .node .classBodyDeclaration (join [modifiersPrinted ms,
      .node .propertyDeclaration (join [type.printed, .name n, mark .lBrace,
        row (as.map Accessor.printed), mark .rBrace])])
  | .nested ms type =>
    .node .classBodyDeclaration (join [modifiersPrinted ms, type.printed])

def Member.eachPrinted : List Member → List Printed
  | [] => []
  | m :: ms => m.printed :: Member.eachPrinted ms

def TypeDecl.printed : TypeDecl → Printed
  | .ofClass n base interfaces ms =>
    .node .classDeclaration (join [keyword .classKw, .name n, typesPrinted .extendsKw base.toList,
      typesPrinted .implementsKw interfaces, bracedPrinted .classBody (Member.eachPrinted ms)])
  | .ofInterface n bases ms =>
    .node .interfaceDeclaration (join [keyword .interfaceKw, .name n,
      typesPrinted .extendsKw bases, bracedPrinted .interfaceBody (ms.map InterfaceMember.printed)])
  | .ofEnum n constants =>
    .node .enumDeclaration (join [keyword .enumKw, .name n, mark .lBrace,
      constantsPrinted constants, mark .rBrace])

end

/-- A type declaration with its modifiers. -/
structure Declaration where
  modifiers : List Modifier
  type : TypeDecl

def Declaration.printed (d : Declaration) : Printed :=
  .node .typeDeclaration (join [modifiersPrinted d.modifiers, d.type.printed])

/-- The tokens of a unit that holds the declaration. -/
def Declaration.pieces (d : Declaration) : List Piece := d.printed.pieces

/-- The tree of such a unit, with the end of the text as its last token. -/
def Declaration.outline (d : Declaration) : Outline :=
  .node .compilationUnit (d.printed.outlines ++ [.token .eof ""])

end Decl

end ApexSyntax
