import Umd.Domain.Events
/-!
# Projection poison

What a driver that may pause decides on an event: authority-relevant events
pause the projection, machine noise anchored to a quarantined locator is
skipped, everything else is applied.
-/

namespace Umd.Projections

open Umd.Lib Umd.Events

inductive PoisonDecision where
  | apply
  | skip
  | pause
deriving DecidableEq, Repr

structure PoisonOutcome where
  decision : PoisonDecision
  reason : String := ""

/-- `AUTHORITY_PAUSE_EVENTS`. -/
def authorityPauseEvents : List EventType :=
  [.OverrideApplied, .CorrectionApplied, .EntityResolved, .Locked, .Unlocked, .Invalidated, .ReferenceRebound]

/-- The non-empty strings of a list. -/
def refTexts (xs : List Json) : List String := (xs.filterMap Json.str?).filter (· ≠ "")

/-- The refs under a key of a payload: one text, or a list of them. -/
def refAt (p : Dict) (k : String) : List String := refTexts [p.get k]

def refsAt (p : Dict) (k : String) : List String :=
  match p.get k with
  | .arr xs => refTexts xs
  | _ => []

/-- `event_refs`. -/
def eventRefs (ev : SemanticEvent) : List String :=
  ["subject_ref", "object_ref", "subject_entity_id", "object_entity_id", "source_id", "segment_id", "entity_id",
    "mention_id", "reference", "evidence_ref"].flatMap (refAt ev.payload) ++
  ["support_refs", "contradiction_refs", "refs", "source_refs"].flatMap (refsAt ev.payload) ++
  match ev.payload.get "generated_by" with
  | .obj g => ["evidence_refs", "input_refs", "source_refs"].flatMap fun k => refsAt g k ++ refAt g k
  | _ => []

def referencesQuarantine (ev : SemanticEvent) (quarantined : List String) : Bool :=
  (eventRefs ev).any fun r => quarantined.contains r

/-- `is_authority_pause`. -/
def isAuthorityPause (ev : SemanticEvent) : Bool :=
  authorityPauseEvents.contains ev.eventType ||
    (pyOr (Json.ofStr? ev.authority) (ev.payload.get "authority")).isStr "USER_OVERRIDE"

/-- `classify`. -/
def classify (ev : SemanticEvent) (quarantined : List String) : PoisonOutcome :=
  if isAuthorityPause ev then
    let subject := pyOr (ev.payload.get "subject_ref") (pyOr (ev.payload.get "entity_ref")
      (pyOr (ev.payload.get "entity_id") (.str "?")))
    { decision := .pause
      reason := "authority-relevant " ++ ev.eventType.name ++ " on " ++ pyStr subject ++
        "; projection paused until reconciled state settles" }
  else if referencesQuarantine ev quarantined then
    { decision := .skip
      reason := "non-authoritative machine noise " ++ ev.eventType.name ++
        " anchored to a quarantined locator; skipped" }
  else { decision := .apply }

end Umd.Projections
