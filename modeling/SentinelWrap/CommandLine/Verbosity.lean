/-! Settings of a run that have no part in its result. -/
namespace SentinelWrap.CommandLine

/-- The log level for how often verbosity was asked for. -/
def logLevel : Nat → String
  | 0 => "warn"
  | 1 => "info"
  | 2 => "debug"
  | _ => "trace"

/-- No workers asked for means one for every core. -/
def workers (cores jobs : Nat) : Nat := if jobs = 0 then cores else jobs

end SentinelWrap.CommandLine
