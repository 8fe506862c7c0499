/-
**Settings of code generation.**
-/

import SsaAmd64.Abi.Platform

namespace SsaAmd64

/-- Settings of code generation. -/
structure Options where
  platform : Platform
  /-- Whether each line of the module is repeated as a comment. -/
  comments : Bool
deriving DecidableEq

/-- Linux, with comments. -/
def Options.default : Options := ⟨.linux, true⟩

end SsaAmd64
