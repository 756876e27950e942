import Mathlib.Data.Int.Notation

/-!
# Error codes

A call that fails returns one of them with a minus sign.
-/

namespace Miosix

def ENOENT : ℤ := 2
def EIO : ℤ := 5
def EBADF : ℤ := 9
def ENOMEM : ℤ := 12
def EACCES : ℤ := 13
def EFAULT : ℤ := 14
def EBUSY : ℤ := 16
def EEXIST : ℤ := 17
def EXDEV : ℤ := 18
def ENOTDIR : ℤ := 20
def EINVAL : ℤ := 22
def ENFILE : ℤ := 23
def ENOSPC : ℤ := 28
def EROFS : ℤ := 30
def ERANGE : ℤ := 34
def ENAMETOOLONG : ℤ := 91
def ELOOP : ℤ := 92
def EOVERFLOW : ℤ := 139

end Miosix
