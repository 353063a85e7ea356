import CodexTeams.RustStr

/-! The paths that name agents: `/root`, the names of the agents below it, or `/morpheus`. -/
namespace AgentPaths

open RustStr

def rootPath : Str := "/root"

def morpheusPath : Str := "/morpheus"

def rootSegment : Str := "root"

def isNameChar (c : Char) : Bool := c.isLower || c.isDigit || c == '_'

def validateAgentName (agentName : Str) : Except Str Unit :=
  if agentName = [] then .error "agent_name must not be empty"
  else if agentName = rootSegment then .error "agent_name `root` is reserved"
  else if agentName = "." ∨ agentName = ".." then
    .error ("agent_name `" ++ agentName ++ "` is reserved")
  else if '/' ∈ agentName then .error "agent_name must not contain `/`"
  else if !agentName.all isNameChar then
    .error "agent_name must use only lowercase letters, digits, and underscores"
  else .ok ()

def validateSegments : List Str → Except Str Unit
  | [] => .ok ()
  | segment :: segments =>
    match validateAgentName segment with
    | .error message => .error message
    | .ok () => validateSegments segments

def badStart : Str := "absolute agent paths must start with `/root` or be `/morpheus`"

def validateAbsolutePath (path : Str) : Except Str Unit :=
  if path = morpheusPath then .ok ()
  else match stripPrefix path ['/'] with
    | none => .error badStart
    | some stripped =>
      match stripped.splitOn '/' with
      | [] => .error "absolute agent path must not be empty"
      | root :: segments =>
        if root ≠ rootSegment then .error badStart
        else if stripped.getLast? = some '/' then
          .error "absolute agent path must not end with `/`"
        else validateSegments segments

/-- A path that passed the check. -/
structure AgentPath where
  path : Str
  valid : validateAbsolutePath path = .ok ()
  deriving DecidableEq

namespace AgentPath

def root : AgentPath := ⟨rootPath, by decide⟩

variable (agentPath : AgentPath)

def isRoot : Bool := agentPath.path == rootPath

theorem head?_path (ap : AgentPath) : ap.path.head? = some '/' := by
  have hv := ap.valid
  by_cases hm : ap.path = morpheusPath
  · rw [hm]
    rfl
  · rw [validateAbsolutePath, if_neg hm] at hv
    cases hs : stripPrefix ap.path ['/'] with
    | none =>
      rw [hs] at hv
      cases hv
    | some s =>
      rw [stripPrefix_eq_some.mp hs]
      rfl

end AgentPath

end AgentPaths
