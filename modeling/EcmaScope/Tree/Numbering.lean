import EcmaScope.Tree.Marks

/-!
# Numbering the nodes of a tree

The nodes of a program are numbered in traversal order: a node first, then the nodes below it, part
by part and from left to right.

## Main definitions

* `Tree.numberFrom`: numbers the nodes of a tree from `n` on and gives the next free number.
* `Tree.number`: numbers the nodes of a tree from zero on.
-/

namespace EcmaScope

/-- The mark with another number. -/
def Mark.withId (m : Mark) (n : Nat) : Mark :=
  { m with id := n }

/-- The identifier with another number. -/
def Identifier.withId (i : Identifier) (n : Nat) : Identifier :=
  { i with mark := i.mark.withId n }

/-- The literal with another number. -/
def Literal.withId (l : Literal) (n : Nat) : Literal :=
  { l with mark := l.mark.withId n }

/-- The template element with another number. -/
def TemplateElement.withId (q : TemplateElement) (n : Nat) : TemplateElement :=
  { q with mark := q.mark.withId n }

namespace Tree

/-- Numbers an optional identifier. -/
def numberName : Option Identifier → Nat → Option Identifier × Nat
  | none, n => (none, n)
  | some i, n => (some (i.withId n), n + 1)

/-- Numbers an optional literal. -/
def numberSource : Option Literal → Nat → Option Literal × Nat
  | none, n => (none, n)
  | some l, n => (some (l.withId n), n + 1)

/-- Numbers the texts of a template. -/
def numberQuasis : List TemplateElement → Nat → List TemplateElement × Nat
  | [], n => ([], n)
  | q :: qs, n =>
    let qs := numberQuasis qs (n + 1)
    (q.withId n :: qs.1, qs.2)

/-- Numbers the nodes of a tree in traversal order from `n` on, and gives the next free number. -/
def numberFrom {c : Category} : Tree c → Nat → Tree c × Nat
  | .nil, n => (.nil, n)
  | .cons head tail, n =>
    let head := head.numberFrom n
    let tail := tail.numberFrom head.2
    (.cons head.1 tail.1, tail.2)
  | .absent, n => (.absent, n)
  | .present part, n =>
    let part := part.numberFrom n
    (.present part.1, part.2)
  | .program m body, n =>
    let body := body.numberFrom (n + 1)
    (.program (m.withId n) body.1, body.2)
  | .blockStatement b, n =>
    let b := b.numberFrom n
    (.blockStatement b.1, b.2)
  | .breakStatement m label, n =>
    let label := numberName label (n + 1)
    (.breakStatement (m.withId n) label.1, label.2)
  | .classDeclaration declared, n =>
    let declared := declared.numberFrom n
    (.classDeclaration declared.1, declared.2)
  | .continueStatement m label, n =>
    let label := numberName label (n + 1)
    (.continueStatement (m.withId n) label.1, label.2)
  | .debuggerStatement m, n => (.debuggerStatement (m.withId n), n + 1)
  | .directiveStatement m directive raw, n =>
    (.directiveStatement (m.withId n) directive raw, n + 1)
  | .doWhileStatement m body test, n =>
    let body := body.numberFrom (n + 1)
    let test := test.numberFrom body.2
    (.doWhileStatement (m.withId n) body.1 test.1, test.2)
  | .emptyStatement m, n => (.emptyStatement (m.withId n), n + 1)
  | .exportAllDeclaration m source exported, n =>
    let exported := exported.numberFrom (n + 2)
    (.exportAllDeclaration (m.withId n) (source.withId (n + 1)) exported.1, exported.2)
  | .exportDefaultDeclaration m d, n =>
    let d := d.numberFrom (n + 1)
    (.exportDefaultDeclaration (m.withId n) d.1, d.2)
  | .exportNamedDeclaration m d specifiers source, n =>
    let d := d.numberFrom (n + 1)
    let specifiers := specifiers.numberFrom d.2
    let source := numberSource source specifiers.2
    (.exportNamedDeclaration (m.withId n) d.1 specifiers.1 source.1, source.2)
  | .expressionStatement m e directive, n =>
    let e := e.numberFrom (n + 1)
    (.expressionStatement (m.withId n) e.1 directive, e.2)
  | .iterationStatement form m left right body await, n =>
    let left := left.numberFrom (n + 1)
    let right := right.numberFrom left.2
    let body := body.numberFrom right.2
    (.iterationStatement form (m.withId n) left.1 right.1 body.1 await, body.2)
  | .forStatement m init test update body, n =>
    let init := init.numberFrom (n + 1)
    let test := test.numberFrom init.2
    let update := update.numberFrom test.2
    let body := body.numberFrom update.2
    (.forStatement (m.withId n) init.1 test.1 update.1 body.1, body.2)
  | .functionDeclaration declared, n =>
    let declared := declared.numberFrom n
    (.functionDeclaration declared.1, declared.2)
  | .ifStatement m test consequent alternate, n =>
    let test := test.numberFrom (n + 1)
    let consequent := consequent.numberFrom test.2
    let alternate := alternate.numberFrom consequent.2
    (.ifStatement (m.withId n) test.1 consequent.1 alternate.1, alternate.2)
  | .importDeclaration m specifiers source, n =>
    let specifiers := specifiers.numberFrom (n + 1)
    (.importDeclaration (m.withId n) specifiers.1 (source.withId specifiers.2), specifiers.2 + 1)
  | .labeledStatement m label body, n =>
    let body := body.numberFrom (n + 2)
    (.labeledStatement (m.withId n) (label.withId (n + 1)) body.1, body.2)
  | .returnStatement m argument, n =>
    let argument := argument.numberFrom (n + 1)
    (.returnStatement (m.withId n) argument.1, argument.2)
  | .switchStatement m discriminant cases, n =>
    let discriminant := discriminant.numberFrom (n + 1)
    let cases := cases.numberFrom discriminant.2
    (.switchStatement (m.withId n) discriminant.1 cases.1, cases.2)
  | .throwStatement m argument, n =>
    let argument := argument.numberFrom (n + 1)
    (.throwStatement (m.withId n) argument.1, argument.2)
  | .tryStatement m b handler finalizer, n =>
    let b := b.numberFrom (n + 1)
    let handler := handler.numberFrom b.2
    let finalizer := finalizer.numberFrom handler.2
    (.tryStatement (m.withId n) b.1 handler.1 finalizer.1, finalizer.2)
  | .variableDeclaration d, n =>
    let d := d.numberFrom n
    (.variableDeclaration d.1, d.2)
  | .whileStatement m test body, n =>
    let test := test.numberFrom (n + 1)
    let body := body.numberFrom test.2
    (.whileStatement (m.withId n) test.1 body.1, body.2)
  | .withStatement m object body, n =>
    let object := object.numberFrom (n + 1)
    let body := body.numberFrom object.2
    (.withStatement (m.withId n) object.1 body.1, body.2)
  | .block m body, n =>
    let body := body.numberFrom (n + 1)
    (.block (m.withId n) body.1, body.2)
  | .declaration m kind declarators, n =>
    let declarators := declarators.numberFrom (n + 1)
    (.declaration (m.withId n) kind declarators.1, declarators.2)
  | .declarator m target init, n =>
    let target := target.numberFrom (n + 1)
    let init := init.numberFrom target.2
    (.declarator (m.withId n) target.1 init.1, init.2)
  | .switchCase m test consequent, n =>
    let test := test.numberFrom (n + 1)
    let consequent := consequent.numberFrom test.2
    (.switchCase (m.withId n) test.1 consequent.1, consequent.2)
  | .catchClause m param body, n =>
    let param := param.numberFrom (n + 1)
    let body := body.numberFrom param.2
    (.catchClause (m.withId n) param.1 body.1, body.2)
  | .initDeclaration d, n =>
    let d := d.numberFrom n
    (.initDeclaration d.1, d.2)
  | .initExpression e, n =>
    let e := e.numberFrom n
    (.initExpression e.1, e.2)
  | .targetDeclaration d, n =>
    let d := d.numberFrom n
    (.targetDeclaration d.1, d.2)
  | .targetPattern p, n =>
    let p := p.numberFrom n
    (.targetPattern p.1, p.2)
  | .importDefaultSpecifier m binding, n =>
    (.importDefaultSpecifier (m.withId n) (binding.withId (n + 1)), n + 2)
  | .importNamespaceSpecifier m binding, n =>
    (.importNamespaceSpecifier (m.withId n) (binding.withId (n + 1)), n + 2)
  | .importNamedSpecifier m imported binding, n =>
    let imported := imported.numberFrom (n + 1)
    (.importNamedSpecifier (m.withId n) imported.1 (binding.withId imported.2), imported.2 + 1)
  | .exportSpecifier m binding exported, n =>
    let binding := binding.numberFrom (n + 1)
    let exported := exported.numberFrom binding.2
    (.exportSpecifier (m.withId n) binding.1 exported.1, exported.2)
  | .defaultFunction declared, n =>
    let declared := declared.numberFrom n
    (.defaultFunction declared.1, declared.2)
  | .defaultClass declared, n =>
    let declared := declared.numberFrom n
    (.defaultClass declared.1, declared.2)
  | .defaultExpression e, n =>
    let e := e.numberFrom n
    (.defaultExpression e.1, e.2)
  | .function form m name params body generator async e, n =>
    let name := numberName name (n + 1)
    let params := params.numberFrom name.2
    let body := body.numberFrom params.2
    (.function form (m.withId n) name.1 params.1 body.1 generator async e, body.2)
  | .blockBody b, n =>
    let b := b.numberFrom n
    (.blockBody b.1, b.2)
  | .expressionBody e, n =>
    let e := e.numberFrom n
    (.expressionBody e.1, e.2)
  | .classNode form m name superclass body, n =>
    let name := numberName name (n + 1)
    let superclass := superclass.numberFrom name.2
    let body := body.numberFrom superclass.2
    (.classNode form (m.withId n) name.1 superclass.1 body.1, body.2)
  | .classBody m members, n =>
    let members := members.numberFrom (n + 1)
    (.classBody (m.withId n) members.1, members.2)
  | .method m key value kind computed isStatic, n =>
    let key := key.numberFrom (n + 1)
    let value := value.numberFrom key.2
    (.method (m.withId n) key.1 value.1 kind computed isStatic, value.2)
  | .arrayExpression m elements, n =>
    let elements := elements.numberFrom (n + 1)
    (.arrayExpression (m.withId n) elements.1, elements.2)
  | .arrowFunction fn, n =>
    let fn := fn.numberFrom n
    (.arrowFunction fn.1, fn.2)
  | .assignmentExpression m operator left right, n =>
    let left := left.numberFrom (n + 1)
    let right := right.numberFrom left.2
    (.assignmentExpression (m.withId n) operator left.1 right.1, right.2)
  | .awaitExpression m argument, n =>
    let argument := argument.numberFrom (n + 1)
    (.awaitExpression (m.withId n) argument.1, argument.2)
  | .binaryExpression form m operator left right, n =>
    let left := left.numberFrom (n + 1)
    let right := right.numberFrom left.2
    (.binaryExpression form (m.withId n) operator left.1 right.1, right.2)
  | .callExpression m callee arguments isOptional, n =>
    let callee := callee.numberFrom (n + 1)
    let arguments := arguments.numberFrom callee.2
    (.callExpression (m.withId n) callee.1 arguments.1 isOptional, arguments.2)
  | .chainExpression m e, n =>
    let e := e.numberFrom (n + 1)
    (.chainExpression (m.withId n) e.1, e.2)
  | .classExpression value, n =>
    let value := value.numberFrom n
    (.classExpression value.1, value.2)
  | .conditionalExpression m test consequent alternate, n =>
    let test := test.numberFrom (n + 1)
    let consequent := consequent.numberFrom test.2
    let alternate := alternate.numberFrom consequent.2
    (.conditionalExpression (m.withId n) test.1 consequent.1 alternate.1, alternate.2)
  | .functionExpression fn, n =>
    let fn := fn.numberFrom n
    (.functionExpression fn.1, fn.2)
  | .identifier i, n => (.identifier (i.withId n), n + 1)
  | .importExpression m source, n =>
    let source := source.numberFrom (n + 1)
    (.importExpression (m.withId n) source.1, source.2)
  | .literal l, n => (.literal (l.withId n), n + 1)
  | .memberExpression a, n =>
    let a := a.numberFrom n
    (.memberExpression a.1, a.2)
  | .metaProperty m object prop, n =>
    (.metaProperty (m.withId n) (object.withId (n + 1)) (prop.withId (n + 2)), n + 3)
  | .newExpression m callee arguments isOptional, n =>
    let callee := callee.numberFrom (n + 1)
    let arguments := arguments.numberFrom callee.2
    (.newExpression (m.withId n) callee.1 arguments.1 isOptional, arguments.2)
  | .objectExpression m members, n =>
    let members := members.numberFrom (n + 1)
    (.objectExpression (m.withId n) members.1, members.2)
  | .sequenceExpression m expressions, n =>
    let expressions := expressions.numberFrom (n + 1)
    (.sequenceExpression (m.withId n) expressions.1, expressions.2)
  | .spreadExpression s, n =>
    let s := s.numberFrom n
    (.spreadExpression s.1, s.2)
  | .superExpression m, n => (.superExpression (m.withId n), n + 1)
  | .taggedTemplate m tag quasi, n =>
    let tag := tag.numberFrom (n + 1)
    let quasi := quasi.numberFrom tag.2
    (.taggedTemplate (m.withId n) tag.1 quasi.1, quasi.2)
  | .templateExpression t, n =>
    let t := t.numberFrom n
    (.templateExpression t.1, t.2)
  | .thisExpression m, n => (.thisExpression (m.withId n), n + 1)
  | .unaryExpression m operator leading argument, n =>
    let argument := argument.numberFrom (n + 1)
    (.unaryExpression (m.withId n) operator leading argument.1, argument.2)
  | .updateExpression m operator leading argument, n =>
    let argument := argument.numberFrom (n + 1)
    (.updateExpression (m.withId n) operator leading argument.1, argument.2)
  | .yieldExpression m argument delegate, n =>
    let argument := argument.numberFrom (n + 1)
    (.yieldExpression (m.withId n) argument.1 delegate, argument.2)
  | .access m object prop computed isOptional, n =>
    let object := object.numberFrom (n + 1)
    let prop := prop.numberFrom object.2
    (.access (m.withId n) object.1 prop.1 computed isOptional, prop.2)
  | .spread m argument, n =>
    let argument := argument.numberFrom (n + 1)
    (.spread (m.withId n) argument.1, argument.2)
  | .template m quasis expressions, n =>
    let quasis := numberQuasis quasis (n + 1)
    let expressions := expressions.numberFrom quasis.2
    (.template (m.withId n) quasis.1 expressions.1, expressions.2)
  | .property m key value kind isMethod shorthand computed, n =>
    let key := key.numberFrom (n + 1)
    let value := value.numberFrom key.2
    (.property (m.withId n) key.1 value.1 kind isMethod shorthand computed, value.2)
  | .spreadMember s, n =>
    let s := s.numberFrom n
    (.spreadMember s.1, s.2)
  | .arrayPattern m elements, n =>
    let elements := elements.numberFrom (n + 1)
    (.arrayPattern (m.withId n) elements.1, elements.2)
  | .assignmentPattern m left right, n =>
    let left := left.numberFrom (n + 1)
    let right := right.numberFrom left.2
    (.assignmentPattern (m.withId n) left.1 right.1, right.2)
  | .identifierPattern i, n => (.identifierPattern (i.withId n), n + 1)
  | .memberPattern a, n =>
    let a := a.numberFrom n
    (.memberPattern a.1, a.2)
  | .objectPattern m members, n =>
    let members := members.numberFrom (n + 1)
    (.objectPattern (m.withId n) members.1, members.2)
  | .restPattern r, n =>
    let r := r.numberFrom n
    (.restPattern r.1, r.2)
  | .rest m argument, n =>
    let argument := argument.numberFrom (n + 1)
    (.rest (m.withId n) argument.1, argument.2)
  | .patternProperty m key value computed shorthand, n =>
    let key := key.numberFrom (n + 1)
    let value := value.numberFrom key.2
    (.patternProperty (m.withId n) key.1 value.1 computed shorthand, value.2)
  | .restMember r, n =>
    let r := r.numberFrom n
    (.restMember r.1, r.2)

/-- Numbers the nodes of a tree in traversal order from zero on. -/
def number {c : Category} (t : Tree c) : Tree c :=
  (t.numberFrom 0).1

end Tree

end EcmaScope
