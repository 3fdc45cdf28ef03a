import Ardoise.Token.Lexer

/-!
# Faults

Every way in which a text can fail to be read or run, with its wording.  Faults
of reading are met either while cutting the text into tokens or while arranging
the tokens into a program; all others are met while the program runs.  Wherever
a fault speaks of a value of the wrong kind, `found` is the name of the kind
that was met.
-/

namespace Ardoise

namespace LexicalFault

def message : LexicalFault → String
  | unexpectedCharacter c => c.toString ++ " inattendu"
  | unterminatedText quote =>
    "Chaîne de caractères non fermée, " ++ quote.toString ++ " attendu"

end LexicalFault

inductive Expected where
  | expression
  | closingParenthesis
  | blockEnd
  | functionName
  | parametersStart
  | parameterName
  | parametersEnd
  | functionEnd
  | conditionThen
  | conditionEnd
  | loopDo
  | loopEnd
  | loopVariable
  | loopFrom
  | loopAnd
  | variableName
  | declarationEqual
  | assignmentTarget
  | argumentsEnd
  | indexEnd
  | arrayComma
  | returnInFunction
  /-- The program is nested deeper than the given number of levels. -/
  | tooDeep (limit : Nat)
  deriving DecidableEq

namespace Expected

def message : Expected → String
  | expression => "expression attendue (nombre, chaîne, variable...)"
  | closingParenthesis => "')' attendu pour fermer la parenthèse ouvrante"
  | blockEnd => "'\x7d' attendu à la fin d'un bloc"
  | functionName => "nom de la fonction attendu"
  | parametersStart => "'(' attendu pour définir les paramètres de la fonction"
  | parameterName => "nom de paramètre attendu"
  | parametersEnd => "')' attendu à la fin de la liste des paramètres"
  | functionEnd => "'FIN' attendu à la fin de la fonction"
  | conditionThen => "'ALORS' est attendu à la fin d'une condition"
  | conditionEnd => "'FIN' attendu à la fin d'une condition"
  | loopDo => "'FAIRE' est attendu après la condition d'une boucle"
  | loopEnd => "'FIN' attendu à la fin d'une boucle"
  | loopVariable => "nom de variable attendu"
  | loopFrom => "'ENTRE' attendu ici"
  | loopAnd => "mot clef 'ET' attendu"
  | variableName => "un nom de variable est attendu après VAR"
  | declarationEqual => "'=' attendu pour déclarer une variable"
  | assignmentTarget => "l'expression à gauche d'un '=' doit être une variable"
  | argumentsEnd => "')' attendu à la fin de la liste des arguments"
  | indexEnd => "']' attendu après l'index d'un tableau"
  | arrayComma => "',' attendu entre les éléments d'un tableau"
  | returnInFunction => "'RETOURNER' n'est possible qu'à l'intérieur d'une fonction"
  | tooDeep limit => "le programme est imbriqué sur plus de " ++ toString limit ++ " niveaux"

end Expected

structure GrammarFault where
  found : String
  expected : Expected
  deriving DecidableEq

namespace GrammarFault

/-- The end of the program is written with no character, and is given a name. -/
def ofLexeme (lexeme : String) (expected : Expected) : GrammarFault :=
  ⟨if lexeme.isEmpty then "fin du programme" else lexeme, expected⟩

def message (fault : GrammarFault) : String :=
  fault.found ++ " inattendu, " ++ fault.expected.message

end GrammarFault

inductive Bound where
  | first
  | last
  deriving DecidableEq

inductive RuntimeFault where
  | negateNonNumber (found : String)
  | notNonBoolean (found : String)
  /-- The operation is given by the participle that says what numbers alone can be. -/
  | numbersRequired (operation found : String)
  | addToNumber (found : String)
  | addToText (found : String)
  | addUnsupported (found : String)
  /-- No binary operation has an operator of this kind. -/
  | notAnOperator (op : Kind)
  | conditionNotBoolean (found : String)
  | logicalLeftNotBoolean (operator found : String)
  | logicalRightNotBoolean (operator found : String)
  | loopBoundNotNumber (bound : Bound) (found : String)
  | undefinedVariable (name : String)
  | redeclaration (name : String)
  | readOnly (name : String)
  | notCallable (found : String)
  | arityMismatch (expected received : Nat)
  | notAnArray (found : String)
  | indexNotNumber (found : String)
  | indexNotInteger (index : Float)
  | negativeIndex (index : Float)
  | indexOutOfBounds (index : Float) (length : Nat)
  | infiniteLoop
  | callDepthExceeded (limit : Nat)
  /-- A library function refused its arguments. -/
  | library (function reason : String)
  deriving DecidableEq

namespace RuntimeFault

def message : RuntimeFault → String
  | negateNonNumber found =>
    s!"Impossible d'utiliser l'opérateur \"-\" sur une valeur qui n'est pas un nombre ({found})"
  | notNonBoolean found =>
    "Impossible d'utiliser l'opérateur \"!\" sur une valeur qui n'est pas un booléen " ++
      s!"(vrai / faux) ({found})"
  | numbersRequired operation found =>
    s!"Seuls des nombres peuvent être {operation} ({found})"
  | addToNumber found => s!"Un nombre doit être ajouté à un autre nombre ({found})"
  | addToText found =>
    s!"Une chaîne de caractères doit être ajoutée à une autre chaîne ({found})"
  | addUnsupported found => s!"Impossible d'additionner ces types ensemble ({found})"
  | notAnOperator op => op.written ++ " is not a binary operator"
  | conditionNotBoolean found => s!"Un booléen doit être utilisé pour une condition ({found})"
  | logicalLeftNotBoolean operator found =>
    s!"L'expression à gauche d'un {operator} doit être un booléen ({found})"
  | logicalRightNotBoolean operator found =>
    s!"L'expression à droite d'un {operator} doit être un booléen ({found})"
  | loopBoundNotNumber .first found =>
    s!"La valeur de départ de la boucle doit être un nombre ({found})"
  | loopBoundNotNumber .last found =>
    s!"La valeur de fin de la boucle doit être un nombre ({found})"
  | undefinedVariable name => s!"La variable {name} n'existe pas"
  | redeclaration name => s!"Impossible de redéclarer la variable {name}"
  | readOnly name => s!"{name} fait partie de la bibliothèque et ne peut pas être modifié"
  | notCallable found => s!"La valeur n'est pas une fonction ({found})"
  | arityMismatch expected received =>
    s!"La fonction attend {expected} paramètre(s) ({received} obtenu(s))"
  | notAnArray found => s!"Impossible d'utiliser cet élément comme un tableau ({found})"
  | indexNotNumber found => s!"L'index d'un tableau doit être un nombre ({found})"
  | indexNotInteger index =>
    "L'index d'un tableau doit être un nombre entier (valeur obtenue: " ++
      Number.Format.quoted.text index ++ ")"
  | negativeIndex index =>
    "L'index d'un tableau ne peut pas être négatif (valeur obtenue: " ++
      Number.Format.quoted.text index ++ ")"
  | indexOutOfBounds index length =>
    "L'index est supérieur à la taille du tableau (index: " ++
      Number.Format.quoted.text index ++ s!", taille: {length})"
  | infiniteLoop => "Boucle infinie, la condition de cette boucle ne devient jamais fausse"
  | callDepthExceeded limit =>
    s!"Trop d'appels de fonction imbriqués (limite: {limit}), la récursion ne s'arrête jamais ?"
  | library function reason => function ++ ": " ++ reason

end RuntimeFault

end Ardoise
