import TokenCorpus.Encoding.Config

/-!
The choices of a corpus build.
-/

namespace TokenCorpus

/-- How a corpus is built. -/
structure BuildOptions where
  encoding : EncodingConfig := {}
  /-- Files with this extension are parsed, whatever the case of its letters. -/
  extension : Text := "sutra".toList
  /-- The number of digits in document names. -/
  sequenceWidth : Nat := 8
  deriving DecidableEq, Repr, Inhabited

namespace BuildOptions

/-- The usual choices, with the given encoding. -/
def ofEncoding (encoding : EncodingConfig) : BuildOptions := { encoding }

/-- The same choices with another extension, which may be given with points before it. -/
def withExtension (o : BuildOptions) (extension : Text) : BuildOptions :=
  { o with extension := extension.dropWhile (· = '.') }

/-- The same choices with another number of digits. -/
def withSequenceWidth (o : BuildOptions) (width : Nat) : BuildOptions :=
  { o with sequenceWidth := width }

end BuildOptions

/-- The extension in a file name: what follows its last point. A point at the front begins no
extension, and the name of the parent directory has none. -/
def extension? (name : Text) : Option Text :=
  let after := name.reverse.takeWhile (· ≠ '.')
  let before := name.length - after.length - 1
  if after.length = name.length ∨ before = 0 ∨ name = ['.', '.'] then none else some after.reverse

/-- Whether two texts differ at most in the case of ASCII letters. -/
def equalIgnoringCase (a b : Text) : Bool := a.map Char.toLower == b.map Char.toLower

/-- Whether a file of that name is parsed. -/
def BuildOptions.accepts (o : BuildOptions) (name : Text) : Bool :=
  (extension? name).any (equalIgnoringCase · o.extension)

end TokenCorpus
