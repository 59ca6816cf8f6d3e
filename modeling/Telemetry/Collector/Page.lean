import Telemetry.Metric.Basic

/-!
The page with all metrics in a table, one row a metric. Whatever stands in a name, no character of
it has a meaning in the markup.
-/

namespace Telemetry.Collector.Page

def escapeChar : Char → List Char
  | '&' => "&amp;".toList
  | '<' => "&lt;".toList
  | '>' => "&gt;".toList
  | '"' => "&quot;".toList
  | '\'' => "&#39;".toList
  | c => [c]

def escape (cs : List Char) : List Char := cs.flatMap escapeChar

def cell (cs : List Char) : List Char := "<td>".toList ++ cs ++ "</td>".toList

def row (m : Metric) : List Char :=
  "<tr>".toList ++ cell (escape m.name.toList) ++ cell m.kind.name.toList ++
    cell m.value.text.toList ++ "</tr>\n".toList

def top : List Char :=
  ("<!DOCTYPE html>\n<html>\n<head><meta charset=\"utf-8\"><title>Metrics</title></head>\n<body>\n" ++
    "<table>\n<tr><th>Name</th><th>Type</th><th>Value</th></tr>\n").toList

def bottom : List Char := "</table>\n</body>\n</html>\n".toList

def render (metrics : List Metric) : String :=
  String.ofList (top ++ metrics.flatMap row ++ bottom)

end Telemetry.Collector.Page
