import Subscription.Number
import Subscription.Text.Basic

/-!
What the program tells the operator. Each message has a code that does not change and a text that
may; decisions are taken on messages, and the wording is all here. A message of several clauses
parts them by one blank line.
-/

namespace Subscription

/-- Everything that an operation can report. -/
inductive Message where
  | unknownServices (action : Text) (names : List Text)
  | unattachedServices (names : List Text)
  | mixedServices (action : Text) (unknown known : List Text)
  | noServiceNames (action : Text)
  | notEntitled (title : Text)
  | notAvailable (title series : Text)
  | alreadyEnabled (title : Text)
  | alreadyDisabled (title : Text)
  | requiredDisabled (title required : Text)
  | dependentEnabled (title dependent : Text)
  | unsupportedInContainer (title : Text)
  | enablingRequired (title : Text)
  | disablingDependent (title : Text)
  | noLongerEntitled (title : Text)
  | alreadyAttached (contract : Text)
  | notAttached
  | invalidToken
  | refreshFailed
  | autoAttachUnsupported
  | sameInstance (instanceId : Text)
  | reattaching
  | detachFailed
  | betaServices (names : List Text)
  | autoAttachIncomplete (attempts : Number)
  | notRoot
  | noHelp (name : Text)
  | lockHeld (request holder : Text) (pid : Number)

namespace Message

def joinClauses (clauses : List Text) : Text :=
  Text.intercalate "\n\n" clauses

def site : Text :=
  "https://ubuntu.com/pro"

def unknownClause (action name : Text) : Text :=
  "Cannot " ++ action ++ " unknown service '" ++ name ++ "'.\nSee " ++ site

def unattachedClause (name : Text) : Text :=
  "To use '" ++ name ++ "' you need an Ubuntu Pro subscription\n" ++
    "Personal and community subscriptions are available at no charge\nSee " ++ site

def code : Message → Text
  | .unknownServices .. => "invalid-service-or-failure"
  | .unattachedServices .. => "valid-service-failure-unattached"
  | .mixedServices .. => "mixed-services-failure-unattached"
  | .noServiceNames .. => "empty-service-list"
  | .notEntitled .. => "subscription-not-entitled-to-service"
  | .notAvailable .. => "inapplicable-release-series"
  | .alreadyEnabled .. => "service-already-enabled"
  | .alreadyDisabled .. => "service-already-disabled"
  | .requiredDisabled .. => "required-service-disabled"
  | .dependentEnabled .. => "dependent-service-enabled"
  | .unsupportedInContainer .. => "service-unsupported-in-container"
  | .enablingRequired .. => "enabling-required-service"
  | .disablingDependent .. => "disabling-dependent-service"
  | .noLongerEntitled .. => "service-no-longer-entitled"
  | .alreadyAttached .. => "already-attached"
  | .notAttached => "unattached"
  | .invalidToken => "attach-invalid-token"
  | .refreshFailed => "refresh-contract-failure"
  | .autoAttachUnsupported => "unsupported-auto-attach"
  | .sameInstance .. => "already-attached-on-instance"
  | .reattaching => "reattaching-on-new-instance"
  | .detachFailed => "detach-automation-failure"
  | .betaServices .. => "beta-service-found"
  | .autoAttachIncomplete .. => "full-auto-attach-error"
  | .notRoot => "nonroot-user"
  | .noHelp .. => "no-help-available"
  | .lockHeld .. => "lock-held"

def text : Message → Text
  | .unknownServices action names => joinClauses (names.map (unknownClause action))
  | .unattachedServices names => joinClauses (names.map unattachedClause)
  | .mixedServices action unknown known =>
    joinClauses (unknown.map (unknownClause action) ++ known.map unattachedClause)
  | .noServiceNames action =>
    "At least one service name is required.\nUsage: pro " ++ action ++ " <service> [<service>...]"
  | .notEntitled title => "This subscription is not entitled to " ++ title ++ "\nSee " ++ site
  | .notAvailable title series => title ++ " is not available for Ubuntu " ++ series ++ "."
  | .alreadyEnabled title => title ++ " is already enabled.\nSee: sudo pro status"
  | .alreadyDisabled title => title ++ " is not currently enabled\nSee: sudo pro status"
  | .requiredDisabled title required =>
    "Cannot enable " ++ title ++ " when " ++ required ++ " is disabled."
  | .dependentEnabled title dependent =>
    "Cannot disable " ++ title ++ " when " ++ dependent ++ " is enabled."
  | .unsupportedInContainer title => "Cannot install " ++ title ++ " on a container."
  | .enablingRequired title => "Enabling required service: " ++ title
  | .disablingDependent title => "Disabling dependent service: " ++ title
  | .noLongerEntitled title =>
    title ++ " is no longer included in your subscription and was disabled."
  | .alreadyAttached contract =>
    "This machine is already attached to '" ++ contract ++ "'\n" ++
      "To use a different subscription first run: sudo pro detach."
  | .notAttached => "This machine is not attached to an Ubuntu Pro subscription.\nSee " ++ site
  | .invalidToken => "Invalid token. See " ++ site ++ "/dashboard"
  | .refreshFailed => "Unable to refresh your subscription"
  | .autoAttachUnsupported =>
    "Auto-attach image support is not available on this image\nSee: " ++ site
  | .sameInstance instanceId =>
    "Skipping attach: Instance '" ++ instanceId ++ "' is already attached."
  | .reattaching => "Re-attaching Ubuntu Pro subscription on new instance"
  | .detachFailed =>
    "Unable to automatically detach machine before attaching on the new instance."
  | .betaServices names =>
    "Beta services cannot be in the enable list: " ++ Text.intercalate ", " names ++
      "\nUse the beta list instead."
  | .autoAttachIncomplete attempts =>
    "Auto-attach could not enable every requested service after " ++ attempts.text ++ " attempts."
  | .notRoot => "This command must be run as root (try using sudo)."
  | .noHelp name => "No help available for '" ++ name ++ "'"
  | .lockHeld request holder pid =>
    "Unable to perform: " ++ request ++ ".\nOperation in progress: " ++ holder ++ " (pid: " ++
      pid.text ++ ")"

end Message

end Subscription
