import EcmaScope.Tree.Marks

/-!
# Changing marks and names

The tree with another mark at every node and another name in every identifier, all else kept.

## Main definitions

* `Tree.map`: changes all marks and all names.
* `Tree.relabel`: changes the numbers of all nodes.
* `Tree.rename`: changes the names of all identifiers.
-/

namespace EcmaScope

/-- The identifier with its mark and its name changed. -/
def Identifier.map (f : Mark → Mark) (g : String → String) (i : Identifier) : Identifier :=
  ⟨f i.mark, g i.name⟩

/-- The literal with its mark changed. -/
def Literal.mapMark (f : Mark → Mark) (l : Literal) : Literal :=
  { l with mark := f l.mark }

/-- The template element with its mark changed. -/
def TemplateElement.mapMark (f : Mark → Mark) (q : TemplateElement) : TemplateElement :=
  { q with mark := f q.mark }

namespace Tree

/-- Changes every mark by `f` and the name of every identifier by `g`. -/
def map {c : Category} (f : Mark → Mark) (g : String → String) : Tree c → Tree c
  | .nil => .nil
  | .cons head tail => .cons (head.map f g) (tail.map f g)
  | .absent => .absent
  | .present part => .present (part.map f g)
  | .program m body => .program (f m) (body.map f g)
  | .blockStatement b => .blockStatement (b.map f g)
  | .breakStatement m label => .breakStatement (f m) (label.map (·.map f g))
  | .classDeclaration declared => .classDeclaration (declared.map f g)
  | .continueStatement m label => .continueStatement (f m) (label.map (·.map f g))
  | .debuggerStatement m => .debuggerStatement (f m)
  | .directiveStatement m directive raw => .directiveStatement (f m) directive raw
  | .doWhileStatement m body test => .doWhileStatement (f m) (body.map f g) (test.map f g)
  | .emptyStatement m => .emptyStatement (f m)
  | .exportAllDeclaration m source exported =>
    .exportAllDeclaration (f m) (source.mapMark f) (exported.map f g)
  | .exportDefaultDeclaration m d => .exportDefaultDeclaration (f m) (d.map f g)
  | .exportNamedDeclaration m d specifiers source =>
    .exportNamedDeclaration (f m) (d.map f g) (specifiers.map f g) (source.map (·.mapMark f))
  | .expressionStatement m e directive => .expressionStatement (f m) (e.map f g) directive
  | .iterationStatement form m left right body await =>
    .iterationStatement form (f m) (left.map f g) (right.map f g) (body.map f g) await
  | .forStatement m init test update body =>
    .forStatement (f m) (init.map f g) (test.map f g) (update.map f g) (body.map f g)
  | .functionDeclaration declared => .functionDeclaration (declared.map f g)
  | .ifStatement m test consequent alternate =>
    .ifStatement (f m) (test.map f g) (consequent.map f g) (alternate.map f g)
  | .importDeclaration m specifiers source =>
    .importDeclaration (f m) (specifiers.map f g) (source.mapMark f)
  | .labeledStatement m label body => .labeledStatement (f m) (label.map f g) (body.map f g)
  | .returnStatement m argument => .returnStatement (f m) (argument.map f g)
  | .switchStatement m discriminant cases =>
    .switchStatement (f m) (discriminant.map f g) (cases.map f g)
  | .throwStatement m argument => .throwStatement (f m) (argument.map f g)
  | .tryStatement m b handler finalizer =>
    .tryStatement (f m) (b.map f g) (handler.map f g) (finalizer.map f g)
  | .variableDeclaration d => .variableDeclaration (d.map f g)
  | .whileStatement m test body => .whileStatement (f m) (test.map f g) (body.map f g)
  | .withStatement m object body => .withStatement (f m) (object.map f g) (body.map f g)
  | .block m body => .block (f m) (body.map f g)
  | .declaration m kind declarators => .declaration (f m) kind (declarators.map f g)
  | .declarator m target init => .declarator (f m) (target.map f g) (init.map f g)
  | .switchCase m test consequent => .switchCase (f m) (test.map f g) (consequent.map f g)
  | .catchClause m param body => .catchClause (f m) (param.map f g) (body.map f g)
  | .initDeclaration d => .initDeclaration (d.map f g)
  | .initExpression e => .initExpression (e.map f g)
  | .targetDeclaration d => .targetDeclaration (d.map f g)
  | .targetPattern p => .targetPattern (p.map f g)
  | .importDefaultSpecifier m binding => .importDefaultSpecifier (f m) (binding.map f g)
  | .importNamespaceSpecifier m binding => .importNamespaceSpecifier (f m) (binding.map f g)
  | .importNamedSpecifier m imported binding =>
    .importNamedSpecifier (f m) (imported.map f g) (binding.map f g)
  | .exportSpecifier m binding exported =>
    .exportSpecifier (f m) (binding.map f g) (exported.map f g)
  | .defaultFunction declared => .defaultFunction (declared.map f g)
  | .defaultClass declared => .defaultClass (declared.map f g)
  | .defaultExpression e => .defaultExpression (e.map f g)
  | .function form m name params body generator async e =>
    .function form (f m) (name.map (·.map f g)) (params.map f g) (body.map f g) generator async e
  | .blockBody b => .blockBody (b.map f g)
  | .expressionBody e => .expressionBody (e.map f g)
  | .classNode form m name superclass body =>
    .classNode form (f m) (name.map (·.map f g)) (superclass.map f g) (body.map f g)
  | .classBody m members => .classBody (f m) (members.map f g)
  | .method m key value kind computed isStatic =>
    .method (f m) (key.map f g) (value.map f g) kind computed isStatic
  | .arrayExpression m elements => .arrayExpression (f m) (elements.map f g)
  | .arrowFunction fn => .arrowFunction (fn.map f g)
  | .assignmentExpression m operator left right =>
    .assignmentExpression (f m) operator (left.map f g) (right.map f g)
  | .awaitExpression m argument => .awaitExpression (f m) (argument.map f g)
  | .binaryExpression form m operator left right =>
    .binaryExpression form (f m) operator (left.map f g) (right.map f g)
  | .callExpression m callee arguments isOptional =>
    .callExpression (f m) (callee.map f g) (arguments.map f g) isOptional
  | .chainExpression m e => .chainExpression (f m) (e.map f g)
  | .classExpression value => .classExpression (value.map f g)
  | .conditionalExpression m test consequent alternate =>
    .conditionalExpression (f m) (test.map f g) (consequent.map f g) (alternate.map f g)
  | .functionExpression fn => .functionExpression (fn.map f g)
  | .identifier i => .identifier (i.map f g)
  | .importExpression m source => .importExpression (f m) (source.map f g)
  | .literal l => .literal (l.mapMark f)
  | .memberExpression a => .memberExpression (a.map f g)
  | .metaProperty m object prop => .metaProperty (f m) (object.map f g) (prop.map f g)
  | .newExpression m callee arguments isOptional =>
    .newExpression (f m) (callee.map f g) (arguments.map f g) isOptional
  | .objectExpression m members => .objectExpression (f m) (members.map f g)
  | .sequenceExpression m expressions => .sequenceExpression (f m) (expressions.map f g)
  | .spreadExpression s => .spreadExpression (s.map f g)
  | .superExpression m => .superExpression (f m)
  | .taggedTemplate m tag quasi => .taggedTemplate (f m) (tag.map f g) (quasi.map f g)
  | .templateExpression t => .templateExpression (t.map f g)
  | .thisExpression m => .thisExpression (f m)
  | .unaryExpression m operator leading argument =>
    .unaryExpression (f m) operator leading (argument.map f g)
  | .updateExpression m operator leading argument =>
    .updateExpression (f m) operator leading (argument.map f g)
  | .yieldExpression m argument delegate => .yieldExpression (f m) (argument.map f g) delegate
  | .access m object prop computed isOptional =>
    .access (f m) (object.map f g) (prop.map f g) computed isOptional
  | .spread m argument => .spread (f m) (argument.map f g)
  | .template m quasis expressions =>
    .template (f m) (quasis.map (·.mapMark f)) (expressions.map f g)
  | .property m key value kind isMethod shorthand computed =>
    .property (f m) (key.map f g) (value.map f g) kind isMethod shorthand computed
  | .spreadMember s => .spreadMember (s.map f g)
  | .arrayPattern m elements => .arrayPattern (f m) (elements.map f g)
  | .assignmentPattern m left right => .assignmentPattern (f m) (left.map f g) (right.map f g)
  | .identifierPattern i => .identifierPattern (i.map f g)
  | .memberPattern a => .memberPattern (a.map f g)
  | .objectPattern m members => .objectPattern (f m) (members.map f g)
  | .restPattern r => .restPattern (r.map f g)
  | .rest m argument => .rest (f m) (argument.map f g)
  | .patternProperty m key value computed shorthand =>
    .patternProperty (f m) (key.map f g) (value.map f g) computed shorthand
  | .restMember r => .restMember (r.map f g)

/-- Changes the number of every node. -/
def relabel {c : Category} (f : Nat → Nat) (t : Tree c) : Tree c :=
  t.map (fun m => { m with id := f m.id }) id

/-- Changes the name of every identifier. -/
def rename {c : Category} (g : String → String) (t : Tree c) : Tree c :=
  t.map id g

end Tree

end EcmaScope
