import ViewLint.Session

/-!
# Configurations

A configuration is a JSON file that names rules and their settings.
-/

namespace ViewLint.Config

def unusable (path complaint : Text) : Session Json := do
  Session.printLine ("Error loading config file " ++ path ++ ": " ++ complaint)
  return .object []

def load (path : Text) : Session Json := do
  match ← Session.attempt (Session.readFile path) with
  | .ok text =>
    match Json.parse text with
    | .ok config => return config
    | .error e =>
      match e.cause with
      | .tooManyDigits _ => Session.fail (.badJson e)
      | _ => unusable path e.message
  | .error (.storage (.notFound name)) => unusable path (StorageError.notFound name).message
  | .error f => Session.fail f

end ViewLint.Config
