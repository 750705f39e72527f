import EmbedScript.Number.Text

/-!
Tokens of script source. Punctuators are an enumeration whose names are the ones syntax errors
print; keywords are kept by their spelling. A lexeme is a token with the line it starts on and
whether a line terminator stands between it and the token before.
-/

namespace EmbedScript.Syntax

/-- Punctuators, each the longest match of its characters. -/
inductive Punct where
  | plus | minus | star | slash | percent | starStar | plusPlus | minusMinus
  | eq | eqEq | eqEqEq | bang | bangEq | bangEqEq
  | lt | ltEq | gt | gtEq | ltLt | gtGt | gtGtGt
  | amp | ampAmp | pipe | pipePipe | caret | tilde
  | question | colon | semicolon | comma | dot
  | lParen | rParen | lBracket | rBracket | lBrace | rBrace
  | plusEq | minusEq | starEq | slashEq | percentEq | starStarEq
  | ltLtEq | gtGtEq | gtGtGtEq | ampEq | pipeEq | caretEq
  deriving Repr, DecidableEq

/-- The name a syntax error gives a punctuator. -/
def Punct.name : Punct → String
  | .plus => "Plus" | .minus => "Minus" | .star => "Star" | .slash => "Slash"
  | .percent => "Percent" | .starStar => "StarStar" | .plusPlus => "PlusPlus"
  | .minusMinus => "MinusMinus" | .eq => "Eq" | .eqEq => "EqEq" | .eqEqEq => "EqEqEq"
  | .bang => "Bang" | .bangEq => "BangEq" | .bangEqEq => "BangEqEq" | .lt => "Lt"
  | .ltEq => "LtEq" | .gt => "Gt" | .gtEq => "GtEq" | .ltLt => "LtLt" | .gtGt => "GtGt"
  | .gtGtGt => "GtGtGt" | .amp => "Amp" | .ampAmp => "AmpAmp" | .pipe => "Pipe"
  | .pipePipe => "PipePipe" | .caret => "Caret" | .tilde => "Tilde"
  | .question => "Question" | .colon => "Colon" | .semicolon => "Semicolon"
  | .comma => "Comma" | .dot => "Dot" | .lParen => "LParen" | .rParen => "RParen"
  | .lBracket => "LBracket" | .rBracket => "RBracket" | .lBrace => "LBrace"
  | .rBrace => "RBrace" | .plusEq => "PlusEq" | .minusEq => "MinusEq" | .starEq => "StarEq"
  | .slashEq => "SlashEq" | .percentEq => "PercentEq" | .starStarEq => "StarStarEq"
  | .ltLtEq => "LtLtEq" | .gtGtEq => "GtGtEq" | .gtGtGtEq => "GtGtGtEq" | .ampEq => "AmpEq"
  | .pipeEq => "PipeEq" | .caretEq => "CaretEq"

/-- Reserved words: an identifier written without escapes and spelled as one of these is a
keyword. -/
def keywords : List String :=
  ["break", "case", "catch", "const", "continue", "debugger", "default", "delete", "do",
    "else", "false", "finally", "for", "function", "if", "in", "instanceof", "let", "new",
    "null", "return", "switch", "this", "throw", "true", "try", "typeof", "var", "void",
    "while"]

/-- A token; `error` carries the message of a character sequence that is no token. -/
inductive Token where
  | number (x : Float)
  | string (s : String)
  | ident (name : String)
  | keyword (word : String)
  | punct (p : Punct)
  | eof
  | error (message : String)

/-- How a syntax error names a token it did not expect. -/
def Token.describe : Token → String
  | .number x => "'" ++ Number.toText x ++ "'"
  | .string _ => "string"
  | .ident name => "'" ++ name ++ "'"
  | .keyword word => "'" ++ word ++ "'"
  | .punct p => p.name
  | .eof => "end of input"
  | .error message => message

/-- A token with the line it starts on and whether a line terminator precedes it. -/
structure Lexeme where
  token : Token
  line : Nat
  newlineBefore : Bool

end EmbedScript.Syntax
