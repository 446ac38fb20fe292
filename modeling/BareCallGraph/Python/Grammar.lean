import BareCallGraph.Grammar.Rule
import BareCallGraph.Python.Terminal

/-!
# The grammar of Python

The rules of Python as this library reads it. They are far looser than the language: what a compiler
checks later is not checked here, keywords are words like any other where no keyword can stand, and
forms of older versions are read too. Statements that only Python 2 has are read so that they can be
pointed at.

Numbers given to `ranked` order the phrases that compete for a token, from loose to tight; numbers
given to `weighted` order the readings of a whole phrase.
-/

namespace BareCallGraph.Python

open Grammar (Rule Mark Side)

/-- The phrases of Python. Between readings that nothing else tells apart, the one whose phrases come
earlier in this list is preferred. -/
inductive Nonterminal where
  | module | statement | simpleStatements
  | importStatement | importDots | relativeImport | futureImport | importFrom | importList
  | aliasedImport | wildcardImport
  | printStatement | chevron | assertStatement | expressionStatement
  | namedExpression | namedExpressionTarget
  | returnStatement | deleteStatement | raiseStatement
  | passStatement | breakStatement | continueStatement
  | ifStatement | elifClause | elseClause
  | matchStatement | matchBlock | caseClause
  | forStatement | whileStatement
  | tryStatement | exceptClause | exceptGroupClause | finallyClause
  | withStatement | withClause | withItem
  | functionDefinition | parameters | lambdaParameters
  | listSplat | dictionarySplat
  | globalStatement | nonlocalStatement | execStatement | typeAlias
  | classDefinition | typeParameters
  | parenthesizedListSplat | argumentList
  | decoratedDefinition | decorator | block
  | expressionList | dottedName
  | casePattern | simplePattern | asCasePattern | unionPattern
  | listCasePattern | tupleCasePattern | dictionaryPattern | keyValuePattern | keywordPattern
  | splatPattern | classPattern | complexPattern
  | parameterList | patternElements | parameter | pattern | tuplePattern | listPattern
  | defaultParameter | typedDefaultParameter | listSplatPattern | dictionarySplatPattern
  | asPattern | comprehensionExpression
  | expression | primaryExpression
  | notOperator | booleanOperator | binaryOperator | unaryOperator | comparison
  | lambda | comprehensionLambda
  | assignment | augmentedAssignment | patternList | rightHandSide | yield
  | memberAccess | subscript | slice | call
  | typedParameter | type | splatType | genericType | unionType | constrainedType | memberType
  | keywordArgument
  | list | set | tuple | dictionary | pair
  | listComprehension | dictionaryComprehension | setComprehension | generatorExpression
  | comprehensionClauses | parenthesizedExpression | collectionElements
  | forInClause | ifClause | conditional
  | concatenatedString | string | stringText | interpolation | interpolatedExpression
  | formatSpecifier | await | positionalSeparator | keywordSeparator
deriving DecidableEq, Repr, Inhabited

namespace Nonterminal

/-- All phrases, in order. -/
def all : List Nonterminal :=
  [module, statement, simpleStatements,
   importStatement, importDots, relativeImport, futureImport, importFrom, importList,
   aliasedImport, wildcardImport,
   printStatement, chevron, assertStatement, expressionStatement,
   namedExpression, namedExpressionTarget,
   returnStatement, deleteStatement, raiseStatement,
   passStatement, breakStatement, continueStatement,
   ifStatement, elifClause, elseClause,
   matchStatement, matchBlock, caseClause,
   forStatement, whileStatement,
   tryStatement, exceptClause, exceptGroupClause, finallyClause,
   withStatement, withClause, withItem,
   functionDefinition, parameters, lambdaParameters,
   listSplat, dictionarySplat,
   globalStatement, nonlocalStatement, execStatement, typeAlias,
   classDefinition, typeParameters,
   parenthesizedListSplat, argumentList,
   decoratedDefinition, decorator, block,
   expressionList, dottedName,
   casePattern, simplePattern, asCasePattern, unionPattern,
   listCasePattern, tupleCasePattern, dictionaryPattern, keyValuePattern, keywordPattern,
   splatPattern, classPattern, complexPattern,
   parameterList, patternElements, parameter, pattern, tuplePattern, listPattern,
   defaultParameter, typedDefaultParameter, listSplatPattern, dictionarySplatPattern,
   asPattern, comprehensionExpression,
   expression, primaryExpression,
   notOperator, booleanOperator, binaryOperator, unaryOperator, comparison,
   lambda, comprehensionLambda,
   assignment, augmentedAssignment, patternList, rightHandSide, yield,
   memberAccess, subscript, slice, call,
   typedParameter, type, splatType, genericType, unionType, constrainedType, memberType,
   keywordArgument,
   list, set, tuple, dictionary, pair,
   listComprehension, dictionaryComprehension, setComprehension, generatorExpression,
   comprehensionClauses, parenthesizedExpression, collectionElements,
   forInClause, ifClause, conditional,
   concatenatedString, string, stringText, interpolation, interpolatedExpression,
   formatSpecifier, await, positionalSeparator, keywordSeparator]

/-- How a phrase is shown in a tree. Phrases that only group others are not shown. -/
def kind? : Nonterminal → Option Kind
  | module => some .module
  | functionDefinition => some .functionDefinition
  | decoratedDefinition => some .decoratedDefinition
  | call => some .call
  | parenthesizedExpression => some .parenthesized
  | printStatement | execStatement => some .legacyStatement
  | statement | simpleStatements | importList | namedExpressionTarget | matchBlock
  | simplePattern | asCasePattern | listCasePattern | tupleCasePattern | keyValuePattern
  | parameterList | patternElements | parameter | pattern | comprehensionExpression
  | expression | primaryExpression | rightHandSide | comprehensionClauses | collectionElements
  | interpolatedExpression => none
  | _ => some .other

end Nonterminal

/-- A rule over the terminals and phrases of Python. -/
abbrev Phrase := Rule Terminal Nonterminal

namespace Phrase

/-- A keyword or an operator. -/
def tok (spelling : String) : Phrase := .terminal (.literal spelling)

/-- One of several keywords or operators. -/
def toks (spellings : List String) : Phrase := .choice (spellings.map tok)

/-- One token of a kind. -/
def one (t : Terminal) : Phrase := .terminal t

/-- One phrase. -/
def sub (n : Nonterminal) : Phrase := .nonterminal n

/-- One of several phrases. -/
def subs (ns : List Nonterminal) : Phrase := .choice (ns.map sub)

/-- Phrases one after the other. -/
def seq (parts : List Phrase) : Phrase := .sequence parts

/-- One of several alternatives. -/
def alt (options : List Phrase) : Phrase := .choice options

/-- One or more, with commas between them. -/
def commas (r : Phrase) : Phrase := Rule.separated (tok ",") r

/-- A comma that may be left out. -/
def finalComma : Phrase := Rule.optional (tok ",")

/-- One or more, with commas between them and one that may follow. -/
def commaList (r : Phrase) : Phrase := seq [commas r, finalComma]

/-- A part with the rank `r`. -/
def rank (r : Int) (body : Phrase) : Phrase := .ranked r none body

/-- A part with the rank `r` that groups to the left. -/
def rankLeft (r : Int) (body : Phrase) : Phrase := .ranked r (some .left) body

/-- A part with the rank `r` that groups to the right. -/
def rankRight (r : Int) (body : Phrase) : Phrase := .ranked r (some .right) body

/-- A part that is shown as a node of the kind `k`. -/
def shownAs (k : Kind) (body : Phrase) : Phrase := .marked { kind := some k } body

/-- A part that plays the part `r`. -/
def playing (r : Role) (body : Phrase) : Phrase := .marked { role := some r } body

/-- A name. -/
def identifier : Phrase := one .identifier

/-- A keyword that may also be used as a name. -/
def keywordName : Phrase :=
  alt [rank (-3) (shownAs .name (toks ["print", "exec", "async", "await", "match"])),
       shownAs .name (tok "type")]

/-- A name, or a keyword used as one. -/
def anyName : Phrase := alt [identifier, keywordName]

/-- One statement of a line. -/
def simpleStatement : Phrase :=
  subs [.futureImport, .importStatement, .importFrom, .printStatement, .assertStatement,
    .expressionStatement, .returnStatement, .deleteStatement, .raiseStatement, .passStatement,
    .breakStatement, .continueStatement, .globalStatement, .nonlocalStatement, .execStatement,
    .typeAlias]

/-- A statement that holds others. -/
def compoundStatement : Phrase :=
  subs [.ifStatement, .forStatement, .whileStatement, .tryStatement, .withStatement,
    .functionDefinition, .classDefinition, .decoratedDefinition, .matchStatement]

/-- What follows the colon of a compound statement: statements on the same line, an indented block,
or nothing. -/
def suite : Phrase :=
  alt [shownAs .other (sub .simpleStatements), seq [one .indent, sub .block],
    shownAs .other (one .newline)]

/-- One expression or several. -/
def expressions : Phrase := subs [.expression, .expressionList]

/-- What can be assigned to. -/
def leftHandSide : Phrase := subs [.pattern, .patternList]

/-- A splat in parentheses, shown like an expression in parentheses. -/
def shownListSplat : Phrase := shownAs .parenthesized (sub .parenthesizedListSplat)

/-- What the star of a splat stands before. -/
def splatTarget : Phrase := alt [anyName, subs [.subscript, .memberAccess]]

/-- A number. -/
def number : Phrase := alt [one .integer, one .float]

/-- A constant that is spelled as a word. -/
def constant : Phrase := shownAs .other (toks ["True", "False", "None"])

/-- An infix operator between two operands of the kind `operand`. -/
def infixed (operand : Nonterminal) (operator : Phrase) : Phrase :=
  seq [sub operand, operator, sub operand]

/-- Comma-separated case patterns that may be left out, in brackets. -/
def bracketedPatterns (opening closing : String) : Phrase :=
  seq [tok opening, Rule.optional (commaList (sub .casePattern)), tok closing]

/-- A comprehension over the phrase `body`, in brackets. -/
def comprehension (opening : String) (body : Nonterminal) (closing : String) : Phrase :=
  seq [tok opening, sub body, sub .comprehensionClauses, tok closing]

/-- Imported names, with or without parentheses around them. -/
def importedNames : Phrase :=
  alt [sub .importList, seq [tok "(", sub .importList, tok ")"]]

end Phrase

open Phrase

/-- What each phrase of Python may be written as. -/
def rule : Nonterminal → Phrase
  | .module => .many (sub .statement)
  | .statement => alt [sub .simpleStatements, compoundStatement]
  | .simpleStatements =>
    seq [Rule.separated (tok ";") simpleStatement, .optional (tok ";"), one .newline]
  -- Simple statements
  | .importStatement => seq [tok "import", sub .importList]
  | .importDots => .repeated (tok ".")
  | .relativeImport => seq [sub .importDots, .optional (sub .dottedName)]
  | .futureImport => seq [tok "from", tok "__future__", tok "import", importedNames]
  | .importFrom =>
    seq [tok "from", subs [.relativeImport, .dottedName], tok "import",
      alt [sub .wildcardImport, importedNames]]
  | .importList => commaList (subs [.dottedName, .aliasedImport])
  | .aliasedImport => seq [sub .dottedName, tok "as", identifier]
  | .wildcardImport => tok "*"
  | .printStatement =>
    alt [rank 1 (seq [tok "print", sub .chevron, .many (seq [tok ",", sub .expression]), finalComma]),
      rank (-3) (.weighted (-1) (seq [tok "print", commaList (sub .expression)]))]
  | .chevron => seq [tok ">>", sub .expression]
  | .assertStatement => seq [tok "assert", commas (sub .expression)]
  | .expressionStatement =>
    alt [sub .expression, commaList (sub .expression),
      subs [.assignment, .augmentedAssignment, .yield]]
  | .namedExpression => seq [sub .namedExpressionTarget, tok ":=", sub .expression]
  | .namedExpressionTarget => anyName
  | .returnStatement => seq [tok "return", .optional expressions]
  | .deleteStatement => seq [tok "del", expressions]
  | .raiseStatement =>
    seq [tok "raise", .optional expressions, .optional (seq [tok "from", sub .expression])]
  | .passStatement => rankLeft 0 (tok "pass")
  | .breakStatement => rankLeft 0 (tok "break")
  | .continueStatement => rankLeft 0 (tok "continue")
  | .globalStatement => seq [tok "global", commas identifier]
  | .nonlocalStatement => seq [tok "nonlocal", commas identifier]
  | .execStatement =>
    seq [tok "exec", alt [sub .string, identifier],
      .optional (seq [tok "in", commas (sub .expression)])]
  | .typeAlias => .weighted 1 (seq [tok "type", sub .type, tok "=", sub .type])
  -- Compound statements
  | .ifStatement =>
    seq [tok "if", sub .expression, tok ":", suite, .many (sub .elifClause),
      .optional (sub .elseClause)]
  | .elifClause => seq [tok "elif", sub .expression, tok ":", suite]
  | .elseClause => seq [tok "else", tok ":", suite]
  | .matchStatement =>
    seq [tok "match", commaList (sub .expression), tok ":", shownAs .other (sub .matchBlock)]
  | .matchBlock =>
    alt [seq [one .indent, .many (sub .caseClause), one .dedent], one .newline]
  | .caseClause =>
    seq [tok "case", commaList (sub .casePattern), .optional (sub .ifClause), tok ":", suite]
  | .forStatement =>
    seq [.optional (tok "async"), tok "for", leftHandSide, tok "in", expressions, tok ":", suite,
      .optional (sub .elseClause)]
  | .whileStatement =>
    seq [tok "while", sub .expression, tok ":", suite, .optional (sub .elseClause)]
  | .tryStatement =>
    seq [tok "try", tok ":", suite,
      alt [seq [.repeated (sub .exceptClause), .optional (sub .elseClause),
          .optional (sub .finallyClause)],
        seq [.repeated (sub .exceptGroupClause), .optional (sub .elseClause),
          .optional (sub .finallyClause)],
        sub .finallyClause]]
  | .exceptClause =>
    seq [tok "except",
      .optional (seq [sub .expression, .optional (seq [toks ["as", ","], sub .expression])]),
      tok ":", suite]
  | .exceptGroupClause =>
    seq [tok "except*", sub .expression, .optional (seq [tok "as", sub .expression]), tok ":", suite]
  | .finallyClause => seq [tok "finally", tok ":", suite]
  | .withStatement => seq [.optional (tok "async"), tok "with", sub .withClause, tok ":", suite]
  | .withClause =>
    alt [commaList (sub .withItem), seq [tok "(", commaList (sub .withItem), tok ")"]]
  | .withItem => .weighted 1 (sub .expression)
  | .functionDefinition =>
    seq [.optional (tok "async"), tok "def", playing .name identifier,
      .optional (sub .typeParameters), sub .parameters,
      .optional (seq [tok "->", sub .type]), tok ":", suite]
  | .parameters => seq [tok "(", .optional (sub .parameterList), tok ")"]
  | .lambdaParameters => sub .parameterList
  | .listSplat => seq [tok "*", sub .expression]
  | .dictionarySplat => seq [tok "**", sub .expression]
  | .classDefinition =>
    seq [tok "class", identifier, .optional (sub .typeParameters), .optional (sub .argumentList),
      tok ":", suite]
  | .typeParameters => seq [tok "[", commaList (sub .type), tok "]"]
  | .parenthesizedListSplat =>
    rank 1 (seq [tok "(", alt [shownListSplat, sub .listSplat], tok ")"])
  | .argumentList =>
    seq [tok "(",
      .optional (commas (alt [subs [.expression, .listSplat, .dictionarySplat], shownListSplat,
        sub .keywordArgument])),
      finalComma, tok ")"]
  | .decoratedDefinition =>
    seq [.repeated (sub .decorator),
      playing .definition (subs [.classDefinition, .functionDefinition])]
  | .decorator => seq [tok "@", sub .expression, one .newline]
  | .block => seq [.many (sub .statement), one .dedent]
  | .expressionList =>
    rankRight 0 (seq [sub .expression,
      alt [tok ",", seq [.repeated (seq [tok ",", sub .expression]), finalComma]]])
  | .dottedName => rank 1 (Rule.separated (tok ".") identifier)
  -- Patterns of `case`
  | .casePattern =>
    rank 1 (alt [shownAs .other (sub .asCasePattern), subs [.keywordPattern, .simplePattern]])
  | .simplePattern =>
    rank 1 (alt [subs [.classPattern, .splatPattern, .unionPattern],
      shownAs .other (sub .listCasePattern), shownAs .other (sub .tupleCasePattern),
      subs [.dictionaryPattern, .string, .concatenatedString], constant,
      seq [.optional (tok "-"), number], subs [.complexPattern, .dottedName], tok "_"])
  | .asCasePattern => seq [sub .casePattern, tok "as", identifier]
  | .unionPattern =>
    rankRight 0 (seq [sub .simplePattern,
      .repeated (rankLeft 0 (seq [tok "|", sub .simplePattern]))])
  | .listCasePattern => bracketedPatterns "[" "]"
  | .tupleCasePattern => bracketedPatterns "(" ")"
  | .dictionaryPattern =>
    seq [tok "\x7b", .optional (commaList (subs [.keyValuePattern, .splatPattern])), tok "\x7d"]
  | .keyValuePattern => seq [sub .simplePattern, tok ":", sub .casePattern]
  | .keywordPattern => seq [identifier, tok "=", sub .simplePattern]
  | .splatPattern => rank 1 (seq [toks ["*", "**"], alt [identifier, tok "_"]])
  | .classPattern => seq [sub .dottedName, bracketedPatterns "(" ")"]
  | .complexPattern => rank 1 (seq [.optional (tok "-"), number, toks ["+", "-"], number])
  -- Parameters and targets
  | .parameterList => commaList (sub .parameter)
  | .patternElements => commaList (sub .pattern)
  | .parameter =>
    alt [identifier, subs [.typedParameter, .defaultParameter, .typedDefaultParameter,
      .listSplatPattern, .tuplePattern, .keywordSeparator, .positionalSeparator,
      .dictionarySplatPattern]]
  | .pattern =>
    alt [anyName, subs [.subscript, .memberAccess, .listSplatPattern, .tuplePattern, .listPattern]]
  | .tuplePattern => seq [tok "(", .optional (sub .patternElements), tok ")"]
  | .listPattern => seq [tok "[", .optional (sub .patternElements), tok "]"]
  | .defaultParameter =>
    seq [alt [identifier, sub .tuplePattern], tok "=", sub .expression]
  | .typedDefaultParameter =>
    rank (-1) (seq [identifier, tok ":", sub .type, tok "=", sub .expression])
  | .listSplatPattern => seq [tok "*", splatTarget]
  | .dictionarySplatPattern => seq [tok "**", splatTarget]
  | .typedParameter =>
    rank (-1) (seq [alt [identifier, subs [.listSplatPattern, .dictionarySplatPattern]], tok ":",
      sub .type])
  | .positionalSeparator => tok "/"
  | .keywordSeparator => tok "*"
  -- Expressions
  | .asPattern =>
    rankLeft 0 (seq [sub .expression, tok "as", shownAs .other (sub .expression)])
  | .comprehensionExpression => subs [.expression, .comprehensionLambda]
  | .expression =>
    subs [.comparison, .notOperator, .booleanOperator, .lambda, .primaryExpression, .conditional,
      .namedExpression, .asPattern]
  | .primaryExpression =>
    alt [subs [.await, .binaryOperator], anyName, subs [.string, .concatenatedString], number, constant,
      subs [.unaryOperator, .memberAccess, .subscript, .call, .list, .listComprehension,
        .dictionary, .dictionaryComprehension, .set, .setComprehension, .tuple,
        .parenthesizedExpression, .generatorExpression],
      shownAs .other (tok "..."), sub .listSplatPattern]
  | .notOperator => rank 12 (seq [tok "not", sub .expression])
  | .booleanOperator =>
    alt [rankLeft 11 (infixed .expression (tok "and")),
      rankLeft 10 (infixed .expression (tok "or"))]
  | .binaryOperator =>
    alt [rankLeft 18 (infixed .primaryExpression (toks ["+", "-"])),
      rankLeft 19 (infixed .primaryExpression (toks ["*", "@", "/", "%", "//"])),
      rankRight 21 (infixed .primaryExpression (tok "**")),
      rankLeft 14 (infixed .primaryExpression (tok "|")),
      rankLeft 15 (infixed .primaryExpression (tok "&")),
      rankLeft 16 (infixed .primaryExpression (tok "^")),
      rankLeft 17 (infixed .primaryExpression (toks ["<<", ">>"]))]
  | .unaryOperator => rank 20 (seq [toks ["+", "-", "~"], sub .primaryExpression])
  | .comparison =>
    rankLeft 13 (seq [sub .primaryExpression,
      .repeated (seq [alt [toks ["<", "<=", "==", "!=", ">=", ">", "<>", "in"],
          seq [tok "not", tok "in"], tok "is", seq [tok "is", tok "not"]],
        sub .primaryExpression])])
  | .lambda =>
    rank (-2) (seq [tok "lambda", .optional (sub .lambdaParameters), tok ":", sub .expression])
  | .comprehensionLambda =>
    seq [tok "lambda", .optional (sub .lambdaParameters), tok ":", sub .comprehensionExpression]
  | .conditional =>
    rankRight (-1) (seq [sub .expression, tok "if", sub .expression, tok "else", sub .expression])
  | .await => rank 20 (seq [tok "await", sub .primaryExpression])
  | .memberAccess => rank 22 (seq [sub .primaryExpression, tok ".", identifier])
  | .subscript =>
    rank 22 (seq [sub .primaryExpression, tok "[", commaList (subs [.expression, .slice]), tok "]"])
  | .slice =>
    seq [.optional (sub .expression), tok ":", .optional (sub .expression),
      .optional (seq [tok ":", .optional (sub .expression)])]
  | .call =>
    rank 22 (seq [playing .callee (sub .primaryExpression),
      subs [.generatorExpression, .argumentList]])
  | .keywordArgument => seq [anyName, tok "=", sub .expression]
  -- Assignments
  | .assignment =>
    seq [leftHandSide,
      alt [seq [tok "=", sub .rightHandSide], seq [tok ":", sub .type],
        seq [tok ":", sub .type, tok "=", sub .rightHandSide]]]
  | .augmentedAssignment =>
    seq [leftHandSide,
      toks ["+=", "-=", "*=", "/=", "@=", "//=", "%=", "**=", ">>=", "<<=", "&=", "^=", "|="],
      sub .rightHandSide]
  | .patternList =>
    seq [sub .pattern,
      alt [tok ",", seq [.repeated (seq [tok ",", sub .pattern]), finalComma]]]
  | .rightHandSide =>
    subs [.expression, .expressionList, .assignment, .augmentedAssignment, .patternList, .yield]
  | .yield =>
    rankRight 0 (seq [tok "yield", alt [seq [tok "from", sub .expression], .optional expressions]])
  -- Types
  | .type =>
    subs [.expression, .splatType, .genericType, .unionType, .constrainedType, .memberType]
  | .splatType => rank 1 (seq [toks ["*", "**"], identifier])
  | .genericType => rank 1 (seq [identifier, sub .typeParameters])
  | .unionType => rankLeft 0 (infixed .type (tok "|"))
  | .constrainedType => rankRight 0 (infixed .type (tok ":"))
  | .memberType => seq [sub .type, tok ".", identifier]
  -- Displays and comprehensions
  | .list => seq [tok "[", .optional (sub .collectionElements), tok "]"]
  | .set => seq [tok "\x7b", sub .collectionElements, tok "\x7d"]
  | .tuple => seq [tok "(", .optional (sub .collectionElements), tok ")"]
  | .dictionary =>
    seq [tok "\x7b", .optional (commas (subs [.pair, .dictionarySplat])), finalComma, tok "\x7d"]
  | .pair => seq [sub .expression, tok ":", sub .expression]
  | .listComprehension => comprehension "[" .expression "]"
  | .dictionaryComprehension => comprehension "\x7b" .pair "\x7d"
  | .setComprehension => comprehension "\x7b" .expression "\x7d"
  | .generatorExpression => comprehension "(" .expression ")"
  | .comprehensionClauses =>
    seq [sub .forInClause, .many (subs [.forInClause, .ifClause])]
  | .parenthesizedExpression => rank 1 (seq [tok "(", subs [.expression, .yield], tok ")"])
  | .collectionElements =>
    commaList (subs [.expression, .yield, .listSplat, .parenthesizedListSplat])
  | .forInClause =>
    rankLeft 0 (seq [.optional (tok "async"), tok "for", leftHandSide, tok "in",
      commaList (sub .comprehensionExpression)])
  | .ifClause => seq [tok "if", sub .expression]
  -- Strings
  | .concatenatedString => seq [sub .string, .repeated (sub .string)]
  | .string =>
    seq [one .stringStart, .many (subs [.interpolation, .stringText]), one .stringEnd]
  | .stringText =>
    rankRight 0 (.repeated (alt [one .escapedBrace, one .escapeSequence, one .backslash,
      one .stringContent]))
  | .interpolation =>
    seq [tok "\x7b", sub .interpolatedExpression, .optional (tok "="), .optional (one .conversion),
      .optional (sub .formatSpecifier), tok "\x7d"]
  | .interpolatedExpression => subs [.expression, .expressionList, .patternList, .yield]
  | .formatSpecifier =>
    seq [tok ":", .many (alt [one .formatText, sub .interpolation])]

/-- The grammar of Python. -/
def grammar : Grammar.Definition Terminal Nonterminal where
  nonterminals := Nonterminal.all
  rule := rule
  start := .module
  final := .endOfText

end BareCallGraph.Python
