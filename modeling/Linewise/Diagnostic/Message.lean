import Linewise.Diagnostic.Basic
/-!
The wording of diagnostics in English and Korean. A placeholder is a number in braces. Arguments are
put in one after the other, so a placeholder inside an earlier one is filled by a later one.
-/
namespace Linewise

inductive Language where
  | english
  | korean
  deriving DecidableEq, Inhabited

namespace Finding

def englishTemplate : Finding → Bytes
  | .invalidStatement =>
    utf8 "invalid statement: line \x7b0\x7d starts with the reserved marker 't'"
  | .lineEndingMismatch =>
    utf8 "line \x7b0\x7d contains a bare LF while splitting on CRLF; " ++
      utf8 "the file may use a different line-ending convention (try --newline universal)"
  | .deadTrailingEmit =>
    utf8 "line \x7b0\x7d appends text after the last print; " ++
      utf8 "it is never observed and was eliminated"
  | .unknownOpcode => utf8 "unknown QIR opcode '\x7b0\x7d'"
  | .malformedLiteral => utf8 "malformed QIR string literal: \x7b0\x7d"
  | .missingHalt => utf8 "QIR program must end with 'halt'"
  | .trailingAfterHalt => utf8 "QIR instructions found after 'halt'"

def koreanTemplate : Finding → Bytes
  | .invalidStatement =>
    utf8 "잘못된 문장: \x7b0\x7d번째 줄이 예약 마커 't'로 시작합니다"
  | .lineEndingMismatch =>
    utf8 "\x7b0\x7d번째 줄에 CRLF 분할 중 단독 LF가 있습니다. " ++
      utf8 "파일의 줄바꿈 규칙이 다를 수 있습니다 (--newline universal 사용 권장)"
  | .deadTrailingEmit =>
    utf8 "\x7b0\x7d번째 줄은 마지막 print 이후에 문자열을 덧붙이므로 관측되지 않아 제거되었습니다"
  | .unknownOpcode => utf8 "알 수 없는 QIR 명령 '\x7b0\x7d'"
  | .malformedLiteral => utf8 "잘못된 QIR 문자열 리터럴: \x7b0\x7d"
  | .missingHalt => utf8 "QIR 프로그램은 'halt'로 끝나야 합니다"
  | .trailingAfterHalt => utf8 "'halt' 이후에 QIR 명령이 있습니다"

def template (language : Language) (f : Finding) : Bytes :=
  match language with
  | .english => f.englishTemplate
  | .korean => f.koreanTemplate

end Finding

def placeholder (index : Nat) : Bytes := utf8 "\x7b" ++ Decimal.ofNat index ++ utf8 "\x7d"

/-- Puts in the arguments in turn, the first of them at placeholder `index`. -/
def fillFrom (index : Nat) (text : Bytes) : List Bytes → Bytes
  | [] => text
  | arg :: rest => fillFrom (index + 1) (text.replaceAll (placeholder index) arg) rest

def Diagnostic.message (language : Language) (d : Diagnostic) : Bytes :=
  fillFrom 0 (d.finding.template language) d.args

end Linewise
