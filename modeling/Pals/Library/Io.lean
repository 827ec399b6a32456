import Pals.Library.Path

/-! Errors of input and output, with their kinds and texts. -/
namespace Pals.Library

inductive ErrorKind where
  | notFound
  | permissionDenied
  | notADirectory
  | isADirectory
  | filesystemLoop
  | invalidData
  | unsupported
  | brokenPipe
  | other
deriving DecidableEq, Repr

inductive Errno where
  | ENOENT
  | EIO
  | EACCES
  | ENOTDIR
  | EISDIR
  | EPIPE
  | ELOOP
deriving DecidableEq, Repr

def Errno.kind : Errno → ErrorKind
  | ENOENT => .notFound
  | EIO => .other
  | EACCES => .permissionDenied
  | ENOTDIR => .notADirectory
  | EISDIR => .isADirectory
  | EPIPE => .brokenPipe
  | ELOOP => .filesystemLoop

def Errno.text : Errno → String
  | ENOENT => "No such file or directory (os error 2)"
  | EIO => "Input/output error (os error 5)"
  | EACCES => "Permission denied (os error 13)"
  | ENOTDIR => "Not a directory (os error 20)"
  | EISDIR => "Is a directory (os error 21)"
  | EPIPE => "Broken pipe (os error 32)"
  | ELOOP => "Too many levels of symbolic links (os error 40)"

/-- An error, with the path that its text starts with when it names one. -/
structure IoError where
  kind : ErrorKind
  path : Option Path
  text : String
deriving DecidableEq, Repr

abbrev IoResult := Except IoError

def IoError.ofErrno (errno : Errno) : IoError := ⟨errno.kind, none, errno.text⟩

def IoError.new (kind : ErrorKind) (text : String) : IoError := ⟨kind, none, text⟩

def IoError.atPath (kind : ErrorKind) (path : Path) (text : String) : IoError := ⟨kind, some path, text⟩

end Pals.Library
