-- The parts of types: `Name<Args>.Name[]`. Names joined by dots each may have
-- arguments; pairs of brackets stand at the end.
import ApexSyntax.Grammar.Step

namespace ApexSyntax

open Step

/-- The steps that a part of a type consists of. -/
def TypePart.expand (v : Lookahead) : TypePart → List Step
  | .type => [start .typeRef, typ .name, typ .dottedNames, typ .dimensions, finish]
  | .name => [if v.isTypeName 0 then take 1 else expect .identifier, typ .arguments]
  | .arguments =>
    if v.atMark .lt then
      [start .typeArguments, take 1, typ .list, expect (.mark .gt), finish]
    else []
  | .list => [typ .type, typ .moreTypes]
  | .moreTypes => if v.atMark .comma then [take 1, typ .type, typ .moreTypes] else []
  | .dottedNames =>
    if v.atMark .dot && v.isTypeName 1 then [take 1, typ .name, typ .dottedNames] else []
  | .dimensions =>
    if v.atMark .lBrack && v.kind 1 == .mark .rBrack then [take 2, typ .dimensions] else []

end ApexSyntax
