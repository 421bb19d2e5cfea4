import RuleLogic.Predicate.Registry

namespace RuleLogic.Registry

def standardSignatures : List (String × List String) :=
  [("type?", ["type", "input"]),
   ("nil?", ["input"]),
   ("key?", ["name", "input"]),
   ("attr?", ["name", "input"]),
   ("empty?", ["input"]),
   ("filled?", ["input"]),
   ("bool?", ["input"]),
   ("true?", ["value"]),
   ("false?", ["value"]),
   ("int?", ["input"]),
   ("float?", ["input"]),
   ("decimal?", ["input"]),
   ("number?", ["input"]),
   ("str?", ["input"]),
   ("date?", ["input"]),
   ("time?", ["input"]),
   ("hash?", ["input"]),
   ("array?", ["input"]),
   ("odd?", ["input"]),
   ("even?", ["input"]),
   ("lt?", ["num", "input"]),
   ("gt?", ["num", "input"]),
   ("lteq?", ["num", "input"]),
   ("gteq?", ["num", "input"]),
   ("size?", ["size", "input"]),
   ("min_size?", ["num", "input"]),
   ("max_size?", ["num", "input"]),
   ("bytesize?", ["size", "input"]),
   ("included_in?", ["list", "input"]),
   ("excluded_from?", ["list", "input"]),
   ("includes?", ["value", "input"]),
   ("excludes?", ["value", "input"]),
   ("eql?", ["left", "right"]),
   ("not_eql?", ["left", "right"]),
   ("is?", ["left", "right"]),
   ("format?", ["regex", "input"]),
   ("uuid_v4?", ["input"]),
   ("uri?", ["schemes", "input"])]

def standard : Registry :=
  standardSignatures.foldl (fun r (name, params) => r.register name params) empty

end RuleLogic.Registry
