import SentinelWrap.Error
/-! Why a command could not do its work. -/
namespace SentinelWrap.Command

/-- What failed, outermost first. -/
structure Failure where
  chain : List String
deriving DecidableEq, Repr

namespace Failure

def message (failure : Failure) : String := ": ".intercalate failure.chain

def ofError (error : Error) : Failure := ⟨error.chain⟩

/-- An error met while doing something. -/
def during (activity : String) (error : Error) : Failure := ⟨activity :: error.chain⟩

end Failure
end SentinelWrap.Command
