/-! Failures of input and output. -/
namespace Daybook

inductive Fault where
  | missing
  | notDirectory
  | isDirectory
  | noSpace
  | nameTooLong
  | nulInName
  | notUtf8
  | sinkFull
  | other (text : String)
  deriving DecidableEq, Repr

def Fault.message : Fault → String
  | missing => "No such file or directory (os error 2)"
  | notDirectory => "Not a directory (os error 20)"
  | isDirectory => "Is a directory (os error 21)"
  | noSpace => "No space left on device (os error 28)"
  | nameTooLong => "File name too long (os error 36)"
  | nulInName => "file name contained an unexpected NUL byte"
  | notUtf8 => "stream did not contain valid UTF-8"
  | sinkFull => "sink full"
  | other text => text

def Fault.isAbsence : Fault → Bool
  | missing | notDirectory | nameTooLong | nulInName => true
  | _ => false

end Daybook
