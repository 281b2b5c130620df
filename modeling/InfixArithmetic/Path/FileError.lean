import InfixArithmetic.Path.Basic
import InfixArithmetic.Text.Quoted
/-!
# Files that cannot be used

A path with too long a name can be neither read nor written; the other errors arise in writing
only. A file that is not there to be read is no error.
-/

namespace InfixArithmetic

inductive FileError where
  | nameTooLong (path : Path)
  | isFolder (path : Path)
  | notFound (path : Path)

namespace FileError

def path : FileError → Path
  | nameTooLong p => p
  | isFolder p => p
  | notFound p => p

def reason : FileError → String
  | nameTooLong _ => "[Errno 36] File name too long"
  | isFolder _ => "[Errno 21] Is a directory"
  | notFound _ => "[Errno 2] No such file or directory"

def message (e : FileError) : String :=
  e.reason ++ ": " ++ String.ofList (Text.Quoted.encode e.path.toString.toList)

end FileError

end InfixArithmetic
