import SolidityFrontend.Source.Span

/-!
# Faults in the text of a token

Why a stretch of text is no token, with the message and the label a diagnostic shows for it.
-/

namespace SolidityFrontend

/-- Why the digits of a hex string are no bytes. -/
inductive HexFault where
  | unexpectedCharacter (c : Char)
  | oddLength
  deriving DecidableEq, Repr

def HexFault.message : HexFault → String
  | .unexpectedCharacter c => "unexpected character '" ++ String.singleton c ++ "'"
  | .oddLength => "odd number of hex digits"

/-- Why a stretch of text is no token. -/
inductive LexFault where
  | invalidCharacter (c : Char)
  | unterminatedString
  | unterminatedComment
  /-- The first malformed escape sequence, from its backslash on. -/
  | invalidEscape (sequence : String)
  | invalidHexString (cause : HexFault)
  deriving DecidableEq, Repr

namespace LexFault

def message : LexFault → String
  | .invalidCharacter c => "不正な文字: '" ++ String.singleton c ++ "'"
  | .unterminatedString => "未終了の文字列リテラル"
  | .unterminatedComment => "未終了のブロックコメント"
  | .invalidEscape sequence => "不正なエスケープシーケンス: '" ++ sequence ++ "'"
  | .invalidHexString cause => "不正なhex文字列: " ++ cause.message

/-- What a diagnostic writes at the place of the fault. -/
def label : LexFault → String
  | .invalidCharacter _ => "ここに不正な文字があります"
  | .unterminatedString => "文字列が閉じられていません"
  | .unterminatedComment => "コメントが閉じられていません"
  | .invalidEscape _ => "このエスケープは解釈できません"
  | .invalidHexString _ => "16進数字のみ使用できます"

end LexFault

/-- A fault and where it is. -/
structure LexError where
  fault : LexFault
  span : Span
  deriving DecidableEq, Repr

end SolidityFrontend
