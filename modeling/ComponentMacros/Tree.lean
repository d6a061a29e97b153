import ComponentMacros.Span

/-!
# Trees

The shape of a program: every construct is a node with a kind, the span it was
read from and its parts in source order. The kind carries what the parts do not
show, such as names, operators and the values of literals.
-/

namespace ComponentMacros

inductive FunctionRole where
  /-- A statement with a body; it also binds its name where it stands. -/
  | declaration
  | expression
  | signature
  deriving DecidableEq, Repr, Inhabited

inductive Access where
  | plain
  | getter
  | setter
  deriving DecidableEq, Repr, Inhabited

inductive Kind where
  -- names
  | identifier (name : String)
  | binding (name : String)
  /-- A name that stands for itself: a property, a label, an exported name. -/
  | name (name : String)
  | privateName (name : String)
  -- modules
  | program
  | importDeclaration (typeOnly : Bool)
  | importSpecifier (imported : String) (typeOnly : Bool)
  | importDefault
  | importNamespace
  | importAttributes
  | importAttribute
  | importEquals
  | exportNamed (typeOnly : Bool)
  | exportSpecifier (typeOnly : Bool)
  | exportAll (typeOnly : Bool)
  | exportDefault
  | exportAssignment
  | exportAsNamespace
  -- statements
  | block
  | emptyStatement
  | expressionStatement
  | ifStatement
  | whileStatement
  | doWhileStatement
  | forStatement
  | forInStatement
  | forOfStatement (awaits : Bool)
  | continueStatement
  | breakStatement
  | returnStatement
  | throwStatement
  | debuggerStatement
  | labeledStatement
  | withStatement
  | withBody
  | switchStatement
  | caseBlock
  | switchCase (isDefault : Bool)
  | tryStatement
  | catchClause
  | catchParameter
  | finallyClause
  | variableDeclaration (keyword : String)
  | declarator (keyword : String)
  /-- An optional part that is not there. -/
  | omitted
  -- functions
  | function (role : FunctionRole) (isAsync isGenerator : Bool)
  | arrow (isAsync : Bool)
  | parameters
  | parameter
  | restParameter
  | thisParameter
  | functionBody
  -- classes
  | classNode (isDeclaration : Bool)
  | classTail
  | superClass
  | implementsClause
  | classBody
  | method (access : Access) (computed : Bool) (modifiers : List String)
  | field (computed : Bool) (modifiers : List String)
  | staticBlock
  | decorator
  -- patterns
  | objectPattern
  | arrayPattern
  | bindingProperty (computed shorthand : Bool)
  | defaultPattern
  | restElement
  | hole
  -- assignment targets
  | objectTarget
  | arrayTarget
  | targetProperty (computed shorthand : Bool)
  | defaultTarget
  | restTarget
  -- literals
  | this
  | super
  | null
  | boolean (value : Bool)
  | number (raw : String)
  | bigint (raw : String)
  | string (value : String)
  | regex (raw : String)
  | template
  | templateText (raw : String)
  | array
  | object
  /-- A property with its key and value; a shorthand one has a single part, which
  is both. -/
  | property (access : Access) (computed shorthand isMethod : Bool)
  /-- A shorthand property with a default, which only an assignment allows. -/
  | defaultedProperty
  /-- All elements or properties of a value; `beforeComma` if a comma follows. -/
  | spread (beforeComma : Bool)
  -- expressions
  | parenthesized
  | sequence
  | unary (operator : String)
  | update (operator : String) (isPostfix : Bool)
  | binary (operator : String)
  | conditional
  | assignment (operator : String)
  | await
  | yield (delegates : Bool)
  | member (optional : Bool)
  | index (optional : Bool)
  | call (optional : Bool)
  | new
  | chain
  | taggedTemplate
  | importCall
  | metaProperty
  | asExpression
  | satisfiesExpression
  | typeAssertion
  | nonNull
  | instantiation
  -- markup
  | element
  | fragment
  | openingTag (selfClosing : Bool)
  | closingTag
  | tagName (name : String)
  | tagMember
  | tagNamespaced
  | tagAttribute
  | spreadAttribute
  | markupText
  | markupExpression
  | markupSpread
  -- types
  | ascription
  | typeParameters (endsInComma : Bool)
  | typeParameter (bounded : Bool)
  | typeArguments
  | keywordType (keyword : String)
  | typeReference
  | qualifiedName
  | typeQuery
  | typeLiteral
  | functionType
  | constructorType
  | arrayType
  | tupleType
  | namedTupleMember (optional : Bool)
  | optionalType
  | restType
  /-- A type with a question mark before or after it. -/
  | nullableType (isPostfix : Bool)
  /-- A type with an exclamation mark before or after it. -/
  | nonNullType
  | unknownType
  | unionType
  | intersectionType
  | parenthesizedType
  | typeOperator (operator : String)
  | indexedAccessType
  | conditionalType
  | conditionalMatch
  | inferType
  | mappedType
  | literalType
  | templateType
  | importType
  | typePredicate (asserts : Bool)
  | propertySignature (computed : Bool)
  | methodSignature (access : Access) (computed : Bool)
  | callSignature
  | constructSignature
  | indexSignature
  -- type declarations
  | typeAlias
  | typeAliasTail
  | interfaceDeclaration
  | interfaceTail
  | interfaceExtends
  | interfaceBody
  | enumDeclaration
  | enumBody
  | enumMember (computed : Bool)
  | moduleDeclaration
  | moduleBody
  deriving DecidableEq, Repr, Inhabited

inductive Tree where
  | node (kind : Kind) (span : Span) (children : List Tree)
  deriving Repr, Inhabited

namespace Tree

def kind : Tree → Kind
  | node k _ _ => k

def span : Tree → Span
  | node _ s _ => s

def children : Tree → List Tree
  | node _ _ cs => cs

def stripParens : Tree → Tree
  | node .parenthesized _ [inner] => inner.stripParens
  | t => t

def find? (t : Tree) (p : Kind → Bool) : Option Tree :=
  t.children.find? (p ·.kind)

end Tree

mutual

def Tree.any (p : Kind → Bool) : Tree → Bool
  | .node k _ cs => p k || anyTree p cs

def anyTree (p : Kind → Bool) : List Tree → Bool
  | [] => false
  | t :: ts => Tree.any p t || anyTree p ts

end

namespace Kind

def isExpression : Kind → Bool
  | .identifier _ | .this | .super | .null | .boolean _ | .number _ | .bigint _ | .string _
  | .regex _ | .template | .array | .object | .function .expression _ _ | .arrow _
  | .classNode false | .parenthesized | .sequence | .unary _ | .update _ _ | .binary _
  | .conditional | .assignment _ | .await | .yield _ | .member _ | .index _ | .call _ | .new
  | .chain | .taggedTemplate | .importCall | .metaProperty | .asExpression
  | .satisfiesExpression | .typeAssertion | .nonNull | .instantiation | .element | .fragment => true
  | _ => false

/-- The node is type-level code through and through: no name in it is a value. -/
def isTypeContext : Kind → Bool
  | .ascription | .typeQuery | .typeReference | .typeAlias | .interfaceDeclaration
  | .typeArguments => true
  | _ => false

/-- The node opens a scope; the answer says whether `var` declarations land in it. -/
def scope? : Kind → Option Bool
  | .program | .function _ _ _ | .arrow _ => some true
  | .block | .forStatement | .forInStatement | .forOfStatement _ | .caseBlock | .catchClause
  | .classTail | .staticBlock | .withBody | .enumBody | .conditionalMatch | .typeAliasTail
  | .interfaceTail | .callSignature | .constructSignature | .methodSignature _ _
  | .functionType | .constructorType | .mappedType | .moduleBody => some false
  | _ => none

end Kind

end ComponentMacros
