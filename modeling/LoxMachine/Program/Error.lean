import LoxMachine.Token.Basic

/-!
# Errors in a source text

What a text can have wrong: a token the grammar does not allow, a rule of the language broken, or a
limit of the machine passed (`Defect`); or text that is no token at all. A `SourceError` says so and
where.
-/

namespace LoxMachine

/-- A token that the grammar asks for, by the place where it does. -/
inductive Expectation where
  | className | superclassName | classOpen | classClose
  | methodName | functionName | parametersOpen | parameterName | parametersClose | bodyOpen
  | variableName | variableEnd
  | valueEnd | assertionEnd | blockClose
  | ifOpen | conditionClose | returnEnd | whileOpen
  | forOpen | loopConditionEnd | forClose
  | expressionEnd | groupClose | argumentsClose
  | propertyName | superDot | superclassMethodName
deriving DecidableEq, Repr

namespace Expectation

def kind : Expectation → TokenKind
  | .className | .superclassName | .methodName | .functionName | .parameterName | .variableName
  | .propertyName | .superclassMethodName => .identifier
  | .classOpen | .bodyOpen => .leftBrace
  | .classClose | .blockClose => .rightBrace
  | .parametersOpen | .ifOpen | .whileOpen | .forOpen => .leftParen
  | .parametersClose | .conditionClose | .forClose | .groupClose | .argumentsClose => .rightParen
  | .variableEnd | .valueEnd | .assertionEnd | .returnEnd | .loopConditionEnd
  | .expressionEnd => .semicolon
  | .superDot => .dot

def message : Expectation → String
  | .className => "Expect class name."
  | .superclassName => "Expect superclass name."
  | .classOpen => "Expect '\x7b' before class body."
  | .classClose => "Expect '\x7d' after class body."
  | .methodName => "Expect method name."
  | .functionName => "Expect function name."
  | .parametersOpen => "Expect '(' after function name."
  | .parameterName => "Expect parameter name."
  | .parametersClose => "Expect ')' after parameters."
  | .bodyOpen => "Expect '\x7b' before function body."
  | .variableName => "Expect variable name."
  | .variableEnd => "Expect ';' after variable declaration."
  | .valueEnd => "Expect ';' after value."
  | .assertionEnd => "Expect ';' after assertion."
  | .blockClose => "Expect '\x7d' after block."
  | .ifOpen => "Expect '(' after 'if'."
  | .conditionClose => "Expect ')' after condition."
  | .returnEnd => "Expect ';' after return value."
  | .whileOpen => "Expect '(' after 'while'."
  | .forOpen => "Expect '(' after 'for'."
  | .loopConditionEnd => "Expect ';' after loop condition."
  | .forClose => "Expect ')' after for clauses."
  | .expressionEnd => "Expect ';' after expression."
  | .groupClose => "Expect ')' after expression."
  | .argumentsClose => "Expect ')' after arguments."
  | .propertyName => "Expect property name after '.'."
  | .superDot => "Expect '.' after 'super'."
  | .superclassMethodName => "Expect superclass method name."

end Expectation

inductive Defect where
  | expect (what : Expectation)
  | expectExpression
  | invalidAssignmentTarget
  | invalidNumber
  | ownInitializer
  | duplicateLocal
  | tooManyLocals
  | tooManyUpvalues
  | tooManyConstants
  | tooManyParameters
  | tooManyArguments
  | jumpTooLarge
  | loopTooLarge
  | topLevelReturn
  | initializerReturn
  | thisOutsideClass
  | superOutsideClass
  | superWithoutSuperclass
  | inheritFromSelf
deriving DecidableEq, Repr

def Defect.message : Defect → String
  | .expect what => what.message
  | .expectExpression => "Expect expression."
  | .invalidAssignmentTarget => "Invalid assignment target."
  | .invalidNumber => "Invalid number literal."
  | .ownInitializer => "Can't read local variable in its own initializer."
  | .duplicateLocal => "Already a variable with this name in this scope."
  | .tooManyLocals => "Too many local variables in function."
  | .tooManyUpvalues => "Too many closure variables in function."
  | .tooManyConstants => "Too many constants in one chunk."
  | .tooManyParameters => "Can't have more than 255 parameters."
  | .tooManyArguments => "Can't have more than 255 arguments."
  | .jumpTooLarge => "Too much code to jump over."
  | .loopTooLarge => "Loop body is too large."
  | .topLevelReturn => "Can't return from top-level code."
  | .initializerReturn => "Can't return a value from an initializer."
  | .thisOutsideClass => "Can't use 'this' outside of a class."
  | .superOutsideClass => "Can't use 'super' outside of a class."
  | .superWithoutSuperclass => "Can't use 'super' in a class with no superclass."
  | .inheritFromSelf => "A class can't inherit from itself."

/-- The token at which a defect shows. -/
inductive Place where
  | atEnd
  | atToken (text : String)
deriving DecidableEq, Repr

def Place.ofToken (t : Token) : Place :=
  if t.kind = .eof then .atEnd else .atToken t.text

def Place.text : Place → String
  | .atEnd => "end"
  | .atToken text => "'" ++ text ++ "'"

inductive SourceError where
  | scan (line : Nat) (cause : ScanError)
  | grammar (line : Nat) (place : Place) (cause : Defect)
deriving DecidableEq, Repr

namespace SourceError

def line : SourceError → Nat
  | .scan line _ | .grammar line _ _ => line

def message : SourceError → String
  | .scan line cause => "[line " ++ toString line ++ "] Error: " ++ cause.message
  | .grammar line place cause =>
    "[line " ++ toString line ++ "] Error at " ++ place.text ++ ": " ++ cause.message

/-- All errors of a text, under a heading that counts them. -/
def report (errors : List SourceError) : String :=
  let heading := toString errors.length ++ " compilation error" ++
    (if errors.length = 1 then "" else "s") ++ "\n"
  errors.foldl (fun text e => text ++ e.message ++ "\n") heading

end SourceError

end LoxMachine
