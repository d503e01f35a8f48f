/-!
# Errors of the operating system

The system names each of its errors by a number, and messages show the number after the text.
-/

namespace Tapecode

/-- An error that the operating system reports. -/
structure SystemError where
  text : String
  code : Nat
  deriving DecidableEq, Repr

namespace SystemError

/-- An error as it is printed. -/
def message (e : SystemError) : String :=
  e.text ++ " (os error " ++ toString e.code ++ ")"

/-- There is no file of that name. -/
def notFound : SystemError := ⟨"No such file or directory", 2⟩

/-- The file may not be read. -/
def permissionDenied : SystemError := ⟨"Permission denied", 13⟩

/-- The name goes on below something that is not a directory. -/
def notDirectory : SystemError := ⟨"Not a directory", 20⟩

/-- The name is that of a directory. -/
def isDirectory : SystemError := ⟨"Is a directory", 21⟩

/-- The name is longer than names can be. -/
def nameTooLong : SystemError := ⟨"File name too long", 36⟩

/-- The error with a code, which some calls report negated. `details` describes a code that has no name
here. -/
def ofCode (code : UInt32) (details : String) : SystemError :=
  let code := min code.toNat (-code).toNat
  let named := [notFound, permissionDenied, notDirectory, isDirectory, nameTooLong]
  (named.find? fun e => e.code = code).getD ⟨details, code⟩

end SystemError

end Tapecode
